/-
# The length of a message over its life

`Serialize` makes its buffer as long as the header says and then copies as much as
the class has; `Deserialize` takes the header over from any buffer.  A message is
followed here through any sequence of both.
-/

import RoutePlanner.Messages.Deserialize
import RoutePlanner.Std.Machine

namespace RoutePlanner.Messages

open RoutePlanner.Std

namespace Msg

/-- What is called on a message. -/
inductive Call
  | deserialize (buffer : List Byte)
  | serialize

/-- One call; its result is dropped. -/
def exec (msg : Msg) : Call → Except Fault Msg
  | .deserialize buffer => do
      let (_, msg) ← msg.deserialize buffer
      return msg
  | .serialize => do
      let _ ← msg.serialize
      return msg

/-- The length in the header is that of the class, and `Serialize` gives header and
body and nothing else. -/
structure LengthRight (msg : Msg) : Prop where
  length : msg.header.length.toNat = msg.type.length
  serialize : msg.serialize = .ok (msg.header.toBytes ++ msg.body.toBytes)

/-- After each of the calls the message is an object of the class it was, and its
length is right. -/
def KeepsLength (msg : Msg) (calls : List Call) : Prop :=
  ∀ pre post, calls = pre ++ post →
    ∃ msg', Machine.run exec msg pre = .ok msg' ∧ msg'.type = msg.type ∧ msg'.LengthRight

/-- `Serialize` is right if the length is: with a smaller one it writes behind its
buffer, with a larger one it adds zeros. -/
theorem lengthRight_iff (msg : Msg) :
    msg.LengthRight ↔ msg.header.length.toNat = msg.type.length := by
  refine ⟨LengthRight.length, fun hlen => ⟨hlen, ?_⟩⟩
  rw [serialize, hlen, if_neg (Nat.lt_irrefl _), Nat.sub_self, List.replicate_zero,
    List.append_nil]

/-- The class stays, and a buffer with a header replaces the header. -/
theorem deserialize_eq_ok {msg msg' : Msg} {buffer : List Byte} {n : Nat}
    (h : msg.deserialize buffer = .ok (n, msg')) :
    msg'.type = msg.type ∧
      msg'.header = if MSG_HEADER_SIZE ≤ buffer.length then headerOf buffer else msg.header := by
  by_cases hheader : MSG_HEADER_SIZE ≤ buffer.length
  · rw [if_pos hheader]
    by_cases hcopy : (headerOf buffer).length ≠ 0 ∧
        (headerOf buffer).length.toNat ≤ buffer.length ∧ msg.type.bodyLength ≠ 0
    · rw [deserialize_of_copy hcopy.2.2 hheader hcopy.1 hcopy.2.1] at h
      split at h
      · cases h
      · obtain ⟨-, rfl⟩ := Prod.mk.inj (Except.ok.inj h)
        exact ⟨MsgBody.type_ofBytes _ _, rfl⟩
    · rw [deserialize_of_no_copy hheader hcopy] at h
      obtain ⟨-, rfl⟩ := Prod.mk.inj (Except.ok.inj h)
      exact ⟨rfl, rfl⟩
  · rw [if_neg hheader]
    rw [deserialize, if_pos (Nat.lt_of_not_le hheader)] at h
    obtain ⟨-, rfl⟩ := Prod.mk.inj (Except.ok.inj h)
    exact ⟨rfl, rfl⟩

/-- With the length of the class in its header a buffer can be read. -/
theorem deserialize_returns {msg : Msg} {buffer : List Byte}
    (h : MSG_HEADER_SIZE ≤ buffer.length → (headerOf buffer).length.toNat = msg.type.length) :
    ∃ n msg', msg.deserialize buffer = .ok (n, msg') := by
  by_cases hheader : MSG_HEADER_SIZE ≤ buffer.length
  · by_cases hcopy : (headerOf buffer).length ≠ 0 ∧
        (headerOf buffer).length.toNat ≤ buffer.length ∧ msg.type.bodyLength ≠ 0
    · exact deserialize_ok (h hheader ▸ hcopy.2.1)
    · exact ⟨_, _, deserialize_of_no_copy hheader hcopy⟩
  · exact ⟨0, msg, by rw [deserialize, if_pos (Nat.lt_of_not_le hheader)]⟩

/-- One call keeps class and length, if a header it takes over has the length of the
class. -/
theorem exec_keeps {type : MsgType} {msg : Msg} (hmsg : msg.type = type ∧ msg.LengthRight)
    (call : Call) (hcall : ∀ buffer, call = .deserialize buffer →
      MSG_HEADER_SIZE ≤ buffer.length → (headerOf buffer).length.toNat = type.length) :
    ∃ msg', msg.exec call = .ok msg' ∧ msg'.type = type ∧ msg'.LengthRight := by
  obtain ⟨rfl, hright⟩ := hmsg
  cases call with
  | serialize => exact ⟨msg, by rw [exec, hright.serialize]; rfl, rfl, hright⟩
  | deserialize buffer =>
      obtain ⟨n, msg', hread⟩ := deserialize_returns (hcall buffer rfl)
      obtain ⟨htype, hheader⟩ := deserialize_eq_ok hread
      refine ⟨msg', by rw [exec, hread]; rfl, htype, (lengthRight_iff _).mpr ?_⟩
      rw [hheader, htype]
      split
      · exact hcall buffer rfl ‹_›
      · exact hright.length

/-- Through any calls on a message of the factory its length stays right exactly when
every buffer with a header has the length of the class in it. -/
theorem keepsLength_iff (msg : FactoryMsg) (calls : List Call) :
    KeepsLength msg.toMsg calls ↔
      ∀ buffer, Call.deserialize buffer ∈ calls → MSG_HEADER_SIZE ≤ buffer.length →
        (headerOf buffer).length.toNat = msg.type.length := by
  apply Iff.intro
  · intro hkeeps buffer hmem hheader
    obtain ⟨pre, post, rfl⟩ := List.append_of_mem hmem
    obtain ⟨before, hbefore, htype, -⟩ := hkeeps pre _ rfl
    obtain ⟨after, hafter, htype', hright⟩ := hkeeps (pre ++ [.deserialize buffer]) post (by simp)
    rw [Machine.run_concat, hbefore, Fault.ok_bind] at hafter
    obtain ⟨⟨n, msg'⟩, hread, hreturn⟩ := Fault.bind_eq_ok.mp hafter
    obtain rfl := Except.ok.inj hreturn
    have hlen := hright.length
    rwa [(deserialize_eq_ok hread).2, if_pos hheader, htype'] at hlen
  · intro hbuffers pre post heq
    refine Machine.run_invariant (fun before call hbefore => exec_keeps hbefore call)
      ⟨rfl, (lengthRight_iff _).mpr msg.toNat_length⟩ pre ?_
    rintro earlier call rest _ rfl - - buffer rfl hheader
    exact hbuffers buffer (by simp [heq]) hheader

/-- A header that claims no length at all: the next `Serialize` writes behind its
empty buffer. -/
theorem not_keepsLength_zeroLength :
    ¬ KeepsLength (FactoryMsg.new 0 .statusRequest).toMsg
        [.deserialize (MsgHeaderData.toBytes ⟨MSG_STATUS_REQUEST_ID, 0, 0, 0⟩), .serialize] ∧
      Machine.run exec (FactoryMsg.new 0 .statusRequest).toMsg
        [.deserialize (MsgHeaderData.toBytes ⟨MSG_STATUS_REQUEST_ID, 0, 0, 0⟩), .serialize] =
        .error .writeOutOfBounds := by
  have hrun : Machine.run exec (FactoryMsg.new 0 .statusRequest).toMsg
      [.deserialize (MsgHeaderData.toBytes ⟨MSG_STATUS_REQUEST_ID, 0, 0, 0⟩), .serialize] =
        .error .writeOutOfBounds := by
    rfl
  refine ⟨fun hkeeps => ?_, hrun⟩
  obtain ⟨msg', hok, -⟩ := hkeeps _ [] (List.append_nil _).symm
  rw [hrun] at hok
  cases hok

end Msg

end RoutePlanner.Messages
