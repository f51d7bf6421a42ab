/-
# How a C++ computation ends when it does not return

A modelled function returns `Except Fault α`.  Most faults stand for undefined
behaviour, which a correct program never reaches; `outOfRange` is an exception
that `std::stoi` throws and that no handler of the program catches.
-/

import Mathlib.Tactic.Basic

namespace RoutePlanner.Std

universe u v

inductive Fault
  /-- `std::out_of_range` leaves the function. -/
  | outOfRange
  /-- A vector is indexed at or behind its end. -/
  | indexOutOfRange
  /-- An object is used, or deleted once more, after it was deleted. -/
  | deletedObject
  /-- A null pointer is dereferenced. -/
  | nullPointer
  /-- A variable is read before it was assigned. -/
  | uninitialised
  /-- `memcpy` or a string constructor reads outside its source. -/
  | readOutOfBounds
  /-- `memcpy` writes outside its destination. -/
  | writeOutOfBounds
  deriving DecidableEq, Repr

namespace Fault

variable {α : Type u} {β : Type u}

@[simp]
theorem ok_bind (a : α) (f : α → Except Fault β) : (Except.ok a >>= f) = f a := rfl

@[simp]
theorem error_bind (e : Fault) (f : α → Except Fault β) :
    ((Except.error e : Except Fault α) >>= f) = Except.error e := rfl

@[simp]
theorem pure_eq_ok (a : α) : (pure a : Except Fault α) = Except.ok a := rfl

/-- A sequence returns exactly when its first part does and its second part
returns on that result. -/
theorem bind_eq_ok {x : Except Fault α} {f : α → Except Fault β} {b : β} :
    x >>= f = .ok b ↔ ∃ a, x = .ok a ∧ f a = .ok b := by
  cases x with
  | error e => simp
  | ok a => simp

/-- A pointer that is dereferenced. -/
def nonNull : Option α → Except Fault α
  | some a => .ok a
  | none => .error .nullPointer

/-- `std::vector::operator[]`. -/
def index (items : List α) (i : Nat) : Except Fault α :=
  match items[i]? with
  | some a => .ok a
  | none => .error .indexOutOfRange

/-- Assignment through `std::vector::operator[]`. -/
def assign (items : List α) (i : Nat) (a : α) : Except Fault (List α) :=
  if i < items.length then .ok (items.set i a) else .error .indexOutOfRange

theorem nonNull_eq_ok {pointer : Option α} {a : α} :
    nonNull pointer = .ok a ↔ pointer = some a := by
  cases pointer <;> simp [nonNull]

theorem index_of_lt {items : List α} {i : Nat} (h : i < items.length) :
    index items i = .ok items[i] := by
  rw [index, List.getElem?_eq_getElem h]

theorem index_eq_ok {items : List α} {i : Nat} {a : α} :
    index items i = .ok a ↔ items[i]? = some a := by
  rw [index]
  cases items[i]? <;> simp

theorem assign_eq_ok {items items' : List α} {i : Nat} {a : α} :
    assign items i a = .ok items' ↔ i < items.length ∧ items.set i a = items' := by
  rw [assign]
  by_cases hi : i < items.length <;> simp [hi]

end Fault

end RoutePlanner.Std
