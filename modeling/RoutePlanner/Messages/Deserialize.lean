/-
# What `Deserialize` promises

The comment on `Deserialize` names three outcomes: nothing, the header, or the
header and the body.  How many bytes of body are copied is decided by the class,
whether they are copied at all by the length in the buffer.  Where the two
disagree, the copy runs past the buffer or the number returned is none of the
three.
-/

import RoutePlanner.Messages.MsgHeader

namespace RoutePlanner.Messages

open RoutePlanner.Std

/-- The body that a class takes from a buffer. -/
def bodyOf (type : MsgType) (buffer : List Byte) : MsgBody :=
  .ofBytes type ((buffer.drop MSG_HEADER_SIZE).take type.bodyLength)

/-- The outcomes of `Deserialize` that its comment names. -/
inductive Documented (msg : Msg) (buffer : List Byte) : Except Fault (Nat × Msg) → Prop
  | nothing : Documented msg buffer (.ok (0, msg))
  | header (hlen : MSG_HEADER_SIZE ≤ buffer.length) :
      Documented msg buffer (.ok (MSG_HEADER_SIZE, { msg with header := headerOf buffer }))
  | whole (hlen : msg.type.length ≤ buffer.length) :
      Documented msg buffer (.ok (msg.type.length, ⟨headerOf buffer, bodyOf msg.type buffer⟩))

/-- The length written in a buffer suits the object and the buffer: the body is not
copied, or the length is that of the class, or it is that of the header and the
copy changes nothing. -/
def LengthSuits (msg : Msg) (buffer : List Byte) : Prop :=
  msg.type.bodyLength = 0 ∨ buffer.length < MSG_HEADER_SIZE ∨ (headerOf buffer).length = 0 ∨
    buffer.length < (headerOf buffer).length.toNat ∨
    (headerOf buffer).length.toNat = msg.type.length ∨
    ((headerOf buffer).length.toNat = MSG_HEADER_SIZE ∧ msg.type.length ≤ buffer.length ∧
      bodyOf msg.type buffer = msg.body)

namespace Msg

variable {msg : Msg} {buffer : List Byte}

/-- The copy of the body, behind its three guards. -/
theorem deserialize_of_copy (hbody : msg.type.bodyLength ≠ 0)
    (hheader : MSG_HEADER_SIZE ≤ buffer.length) (hzero : (headerOf buffer).length ≠ 0)
    (hle : (headerOf buffer).length.toNat ≤ buffer.length) :
    msg.deserialize buffer =
      if buffer.length < msg.type.length then .error .readOutOfBounds
      else .ok ((headerOf buffer).length.toNat, ⟨headerOf buffer, bodyOf msg.type buffer⟩) := by
  have hcopy : (headerOf buffer).length ≠ 0 ∧
      (headerOf buffer).length.toNat ≤ buffer.length ∧ msg.type.bodyLength ≠ 0 :=
    ⟨hzero, hle, hbody⟩
  rw [deserialize, if_neg (Nat.not_lt_of_le hheader)]
  simp only [if_pos hcopy, bodyOf]

/-- Without the copy only the header is taken over. -/
theorem deserialize_of_no_copy (hheader : MSG_HEADER_SIZE ≤ buffer.length)
    (hcopy : ¬ ((headerOf buffer).length ≠ 0 ∧
      (headerOf buffer).length.toNat ≤ buffer.length ∧ msg.type.bodyLength ≠ 0)) :
    msg.deserialize buffer = .ok (MSG_HEADER_SIZE, { msg with header := headerOf buffer }) := by
  rw [deserialize, if_neg (Nat.not_lt_of_le hheader)]
  simp only [if_neg hcopy]

/-- What the comment allows of a body that was copied. -/
theorem documented_copy_iff {n : Nat} (hn : n ≠ 0) (hlen : msg.type.length ≤ buffer.length) :
    Documented msg buffer (.ok (n, ⟨headerOf buffer, bodyOf msg.type buffer⟩)) ↔
      n = msg.type.length ∨ (n = MSG_HEADER_SIZE ∧ bodyOf msg.type buffer = msg.body) := by
  apply Iff.intro
  · generalize hresult : (Except.ok (n, ⟨headerOf buffer, bodyOf msg.type buffer⟩) :
      Except Fault (Nat × Msg)) = result
    rintro (_ | _ | _)
    · simp only [Except.ok.injEq, Prod.mk.injEq] at hresult
      exact absurd hresult.1 hn
    · simp only [Except.ok.injEq, Prod.mk.injEq, Msg.mk.injEq, true_and] at hresult
      exact Or.inr hresult
    · simp only [Except.ok.injEq, Prod.mk.injEq] at hresult
      exact Or.inl hresult.1
  · rintro (rfl | ⟨rfl, hsame⟩)
    · exact .whole hlen
    · rw [hsame]
      exact .header (msg.type.le_length.trans hlen)

/-- `Deserialize` reads inside every buffer and does what its comment says exactly
when the length written in the buffer suits. -/
theorem deserialize_documented_iff (msg : Msg) (buffer : List Byte) :
    Documented msg buffer (msg.deserialize buffer) ↔ LengthSuits msg buffer := by
  rw [LengthSuits]
  by_cases hheader : MSG_HEADER_SIZE ≤ buffer.length
  · by_cases hcopy : (headerOf buffer).length ≠ 0 ∧
        (headerOf buffer).length.toNat ≤ buffer.length ∧ msg.type.bodyLength ≠ 0
    · obtain ⟨hzero, hle, hbody⟩ := hcopy
      have hzero' : (headerOf buffer).length.toNat ≠ 0 := fun h => hzero (UInt64.toNat_inj.mp h)
      rw [deserialize_of_copy hbody hheader hzero hle]
      simp only [hbody, Nat.not_lt_of_le hheader, hzero, Nat.not_lt_of_le hle, false_or]
      by_cases hlen : msg.type.length ≤ buffer.length
      · rw [if_neg (Nat.not_lt_of_le hlen), documented_copy_iff hzero' hlen]
        simp only [hlen, true_and]
      · -- the copy reads past the buffer
        rw [if_pos (Nat.lt_of_not_le hlen)]
        apply Iff.intro
        · rintro ⟨⟩
        · rintro (hclass | ⟨-, hlen', -⟩)
          · exact absurd (hclass ▸ hle) hlen
          · exact absurd hlen' hlen
    · rw [deserialize_of_no_copy hheader hcopy]
      refine iff_of_true (.header hheader) ?_
      by_cases hbody : msg.type.bodyLength = 0
      · exact Or.inl hbody
      · by_cases hzero : (headerOf buffer).length = 0
        · exact Or.inr (Or.inr (Or.inl hzero))
        · have hlt := Nat.lt_of_not_le fun hle => hcopy ⟨hzero, hle, hbody⟩
          exact Or.inr (Or.inr (Or.inr (Or.inl hlt)))
  · have hlt := Nat.lt_of_not_le hheader
    rw [deserialize, if_pos hlt]
    exact iff_of_true .nothing (Or.inr (Or.inl hlt))

/-- A locations request of which only the header has arrived, and whose header
claims to be all of it. -/
def headerOnlyRequest : List Byte :=
  MsgHeaderData.toBytes ⟨MSG_LOCATIONS_REQUEST_ID, 0, 24, 0⟩

/-- The body is copied from behind the buffer. -/
theorem not_documented_headerOnlyRequest :
    ¬ Documented (FactoryMsg.new 0 .locationsRequest).toMsg headerOnlyRequest
      ((FactoryMsg.new 0 .locationsRequest).toMsg.deserialize headerOnlyRequest) := by
  have hread : (FactoryMsg.new 0 .locationsRequest).toMsg.deserialize headerOnlyRequest =
      .error .readOutOfBounds := by
    rfl
  rw [hread]
  rintro ⟨⟩

end Msg

end RoutePlanner.Messages
