/-
# Reading a stream in chunks

A stream arrives in non-empty chunks, and a reader goes on reading until what it
has received is ready for it.  It takes over whole chunks, so it ends at a chunk
boundary: the first at which it is ready.
-/

import Mathlib.Data.List.Basic
import Mathlib.Data.List.Infix

namespace RoutePlanner.Std

universe u

/-- What one read delivers. -/
abbrev Chunk (α : Type u) := {chunk : List α // chunk ≠ []}

namespace Chunk

variable {α : Type u}

/-- The elements of a sequence of chunks. -/
def join (chunks : List (Chunk α)) : List α := chunks.flatMap Subtype.val

/-- What was received after a number of chunks. -/
def upTo (chunks : List (Chunk α)) (k : Nat) : List α := join (chunks.take k)

/-- Read until what was received is ready; the chunks behind are left. -/
def readUntil (ready : List α → Bool) (received : List α) :
    List (Chunk α) → Option (List α × List (Chunk α))
  | [] => none
  | chunk :: chunks =>
      if ready (received ++ chunk.val) then some (received ++ chunk.val, chunks)
      else readUntil ready (received ++ chunk.val) chunks

/-- What is ready stays ready when more arrives. -/
def Stays (ready : List α → Bool) : Prop :=
  ∀ received more, ready received = true → ready (received ++ more) = true

/-! ## Boundaries -/

@[simp]
theorem join_nil : join ([] : List (Chunk α)) = [] := rfl

@[simp]
theorem join_cons (chunk : Chunk α) (chunks : List (Chunk α)) :
    join (chunk :: chunks) = chunk.val ++ join chunks := List.flatMap_cons

@[simp]
theorem join_append (first second : List (Chunk α)) :
    join (first ++ second) = join first ++ join second := List.flatMap_append

@[simp]
theorem upTo_zero (chunks : List (Chunk α)) : upTo chunks 0 = [] := rfl

@[simp]
theorem upTo_succ (chunk : Chunk α) (chunks : List (Chunk α)) (k : Nat) :
    upTo (chunk :: chunks) (k + 1) = chunk.val ++ upTo chunks k := by
  rw [upTo, List.take_succ_cons, join_cons, upTo]

@[simp]
theorem upTo_length (chunks : List (Chunk α)) : upTo chunks chunks.length = join chunks := by
  rw [upTo, List.take_length]

theorem upTo_append_join_drop (chunks : List (Chunk α)) (k : Nat) :
    upTo chunks k ++ join (chunks.drop k) = join chunks := by
  rw [upTo, ← join_append, List.take_append_drop]

/-- Later boundaries extend earlier ones. -/
theorem exists_upTo_eq_append (chunks : List (Chunk α)) {j k : Nat} (h : j ≤ k) :
    ∃ more, upTo chunks k = upTo chunks j ++ more := by
  obtain ⟨i, rfl⟩ := Nat.exists_eq_add_of_le h
  exact ⟨join ((chunks.drop j).take i), by rw [upTo, List.take_add, join_append, upTo]⟩

theorem length_pos (chunk : Chunk α) : 0 < chunk.val.length :=
  List.length_pos_iff.mpr chunk.property

theorem length_le_length_join (chunks : List (Chunk α)) : chunks.length ≤ (join chunks).length := by
  induction chunks with
  | nil => exact Nat.le_refl 0
  | cons chunk chunks ih =>
      have hpos := length_pos chunk
      simp only [join_cons, List.length_cons, List.length_append]
      omega

/-- No two boundaries coincide. -/
theorem length_upTo_lt (chunks : List (Chunk α)) {k : Nat} (h : k < chunks.length) :
    (upTo chunks k).length < (join chunks).length := by
  have hrest := length_le_length_join (chunks.drop k)
  have hsplit := congrArg List.length (upTo_append_join_drop chunks k)
  rw [List.length_append] at hsplit
  rw [List.length_drop] at hrest
  omega

/-! ## The reader -/

/-- Either no boundary is ready, or the reader stops at the first that is. -/
theorem readUntil_cases (ready : List α → Bool) (received : List α) (chunks : List (Chunk α)) :
    (readUntil ready received chunks = none ∧
        ∀ k < chunks.length, ready (received ++ upTo chunks (k + 1)) = false) ∨
      ∃ k < chunks.length,
        readUntil ready received chunks =
          some (received ++ upTo chunks (k + 1), chunks.drop (k + 1)) ∧
        ready (received ++ upTo chunks (k + 1)) = true ∧
        ∀ j < k, ready (received ++ upTo chunks (j + 1)) = false := by
  induction chunks generalizing received with
  | nil => exact Or.inl ⟨rfl, fun k hk => absurd hk (Nat.not_lt_zero k)⟩
  | cons chunk chunks ih =>
      have hfirst : received ++ upTo (chunk :: chunks) 1 = received ++ chunk.val := by
        rw [upTo_succ, upTo_zero, List.append_nil]
      rw [readUntil]
      by_cases hready : ready (received ++ chunk.val) = true
      · rw [if_pos hready]
        refine Or.inr ⟨0, by simp, ?_, ?_, fun j hj => absurd hj (Nat.not_lt_zero j)⟩
        · rw [hfirst]
          rfl
        · rw [hfirst, hready]
      · rw [if_neg hready]
        have hnot : ready (received ++ upTo (chunk :: chunks) 1) = false := by
          rw [hfirst]
          simpa using hready
        have hshift : ∀ k, received ++ upTo (chunk :: chunks) (k + 1) =
            received ++ chunk.val ++ upTo chunks k := by
          intro k
          rw [upTo_succ, List.append_assoc]
        rcases ih (received ++ chunk.val) with ⟨hnone, hall⟩ | ⟨k, hk, hsome, hat, hbefore⟩
        · refine Or.inl ⟨hnone, fun k hk => ?_⟩
          cases k with
          | zero => exact hnot
          | succ k =>
              rw [hshift]
              exact hall k (Nat.lt_of_succ_lt_succ hk)
        · refine Or.inr ⟨k + 1, Nat.succ_lt_succ hk, ?_, ?_, fun j hj => ?_⟩
          · rw [hsome, hshift, List.drop_succ_cons]
          · rw [hshift, hat]
          · cases j with
            | zero => exact hnot
            | succ j =>
                rw [hshift]
                exact hbefore j (Nat.lt_of_succ_lt_succ hj)

/-- Nothing is lost between what a reader takes and what it leaves. -/
theorem readUntil_append_join {ready : List α → Bool} {received received' : List α}
    {chunks rest : List (Chunk α)} (h : readUntil ready received chunks = some (received', rest)) :
    ready received' = true ∧ received' ++ join rest = received ++ join chunks := by
  rcases readUntil_cases ready received chunks with ⟨hnone, -⟩ | ⟨k, -, hsome, hat, -⟩
  · rw [hnone] at h
    cases h
  · obtain ⟨rfl, rfl⟩ := Prod.mk.inj (Option.some.inj (hsome.symm.trans h))
    exact ⟨hat, by rw [List.append_assoc, upTo_append_join_drop]⟩

/-- A reader that is ready exactly when all of some chunks have arrived stops
behind them. -/
theorem readUntil_join {ready : List α → Bool} {chunks : List (Chunk α)} (hne : chunks ≠ [])
    (more : List (Chunk α)) (hlast : ready (join chunks) = true)
    (hbefore : ∀ k < chunks.length, ready (upTo chunks k) = false) :
    readUntil ready [] (chunks ++ more) = some (join chunks, more) := by
  have hpos : 0 < chunks.length := List.length_pos_iff.mpr hne
  have hupTo : ∀ k ≤ chunks.length, upTo (chunks ++ more) k = upTo chunks k := by
    intro k hk
    rw [upTo, List.take_append_of_le_length hk, upTo]
  have hend : chunks.length - 1 + 1 = chunks.length := Nat.sub_add_cancel hpos
  rcases readUntil_cases ready [] (chunks ++ more) with ⟨-, hall⟩ | ⟨k, -, hsome, hat, hmin⟩
  · have hfalse := hall (chunks.length - 1) (by rw [List.length_append]; omega)
    rw [hend, List.nil_append, hupTo _ (Nat.le_refl _), upTo_length, hlast] at hfalse
    exact Bool.noConfusion hfalse
  · rw [List.nil_append] at hat hsome
    have hk : k = chunks.length - 1 := by
      rcases Nat.lt_trichotomy k (chunks.length - 1) with hlt | heq | hgt
      · rw [hupTo _ (by omega), hbefore _ (by omega)] at hat
        exact Bool.noConfusion hat
      · exact heq
      · have hfalse := hmin _ hgt
        rw [hend, List.nil_append, hupTo _ (Nat.le_refl _), upTo_length, hlast] at hfalse
        exact Bool.noConfusion hfalse
    rw [hsome, hk, hend, hupTo _ (Nat.le_refl _), upTo_length, List.drop_left' rfl]

/-- Two readers that stay ready stop at the same place exactly when they agree at
every boundary. -/
theorem readUntil_eq_iff {ready ready' : List α → Bool} (hstays : Stays ready)
    (hstays' : Stays ready') (chunks : List (Chunk α)) :
    readUntil ready [] chunks = readUntil ready' [] chunks ↔
      ∀ k < chunks.length, ready (upTo chunks (k + 1)) = ready' (upTo chunks (k + 1)) := by
  have hlater : ∀ {r : List α → Bool}, Stays r → ∀ {j k}, j ≤ k →
      r (upTo chunks j) = true → r (upTo chunks k) = true := by
    intro r hr j k hjk hj
    obtain ⟨more, hmore⟩ := exists_upTo_eq_append chunks hjk
    rw [hmore]
    exact hr _ more hj
  have hcases := readUntil_cases ready [] chunks
  have hcases' := readUntil_cases ready' [] chunks
  simp only [List.nil_append] at hcases hcases'
  rcases hcases with ⟨hnone, hall⟩ | ⟨k, hk, hsome, hat, hbefore⟩ <;>
    rcases hcases' with ⟨hnone', hall'⟩ | ⟨k', hk', hsome', hat', hbefore'⟩
  · exact iff_of_true (hnone.trans hnone'.symm) fun j hj => (hall j hj).trans (hall' j hj).symm
  · refine iff_of_false (by simp [hnone, hsome']) fun hagree => ?_
    rw [← hagree k' hk', hall k' hk'] at hat'
    exact Bool.noConfusion hat'
  · refine iff_of_false (by simp [hsome, hnone']) fun hagree => ?_
    rw [hagree k hk, hall' k hk] at hat
    exact Bool.noConfusion hat
  · apply Iff.intro
    · intro heq
      rw [hsome, hsome', Option.some.injEq, Prod.mk.injEq] at heq
      have hlen := congrArg List.length heq.2
      rw [List.length_drop, List.length_drop] at hlen
      obtain rfl : k = k' := by omega
      intro j hj
      by_cases hjk : j < k
      · rw [hbefore j hjk, hbefore' j hjk]
      · rw [hlater hstays (by omega : k + 1 ≤ j + 1) hat,
          hlater hstays' (by omega : k + 1 ≤ j + 1) hat']
    · intro hagree
      have hkk : k = k' := by
        rcases Nat.lt_trichotomy k k' with hlt | heq | hgt
        · rw [hagree k hk, hbefore' k hlt] at hat
          exact Bool.noConfusion hat
        · exact heq
        · rw [← hagree k' hk', hbefore k' hgt] at hat'
          exact Bool.noConfusion hat'
      rw [hsome, hsome', hkk]

end Chunk

end RoutePlanner.Std
