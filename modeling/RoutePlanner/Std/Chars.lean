/-
# Bytes, character classes and `std::stoi`

A C++ string is a sequence of bytes.  The character classes are those of the
classic locale, and `stoi` follows its documented behaviour: leading blanks, an
optional sign, then as many decimal digits as there are; whatever stands behind
the digits is ignored.  The two ways it fails are told apart, because callers
catch one of them and not the other.
-/

import RoutePlanner.Std.Text
import Mathlib.Tactic.Ring

namespace RoutePlanner.Std

/-- One `char`. -/
abbrev Byte := UInt8

/-- A `std::string`. -/
abbrev Str := List Byte

/-- A string literal whose characters are all below 256. -/
def str (s : String) : Str := s.toList.map fun c => c.toNat.toUInt8

/-- `std::isspace`: blank, `\t`, `\n`, `\v`, `\f` and `\r`. -/
def isSpace (c : Byte) : Bool := c == 32 || (9 ≤ c && c ≤ 13)

/-- `std::isdigit`. -/
def isDigit (c : Byte) : Bool := 48 ≤ c && c ≤ 57

def newline : Byte := 10
def comma : Byte := 44
def plus : Byte := 43
def minus : Byte := 45

/-- `boost::trim_copy`. -/
def trimCopy (s : Str) : Str := Text.trim isSpace s

def INT_MAX : Nat := 2 ^ 31 - 1

/-- The exceptions `std::stoi` throws. -/
inductive StoiError
  | invalidArgument
  | outOfRange
  deriving DecidableEq, Repr

/-- The number that a run of decimal digits denotes. -/
def digitsValue (digits : Str) : Nat :=
  digits.foldl (fun value c => 10 * value + (c.toNat - 48)) 0

/-- The optional sign: whether it is a minus, and the text behind it. -/
def takeSign : Str → Bool × Str
  | [] => (false, [])
  | c :: s => if c = minus then (true, s) else if c = plus then (false, s) else (false, c :: s)

/-- `std::stoi` in base ten. -/
def stoi (s : Str) : Except StoiError Int :=
  let signed := takeSign (s.dropWhile isSpace)
  let digits := signed.2.takeWhile isDigit
  if digits = [] then .error .invalidArgument
  else
    let value : Int := if signed.1 then -(digitsValue digits : Int) else digitsValue digits
    if -(INT_MAX : Int) - 1 ≤ value ∧ value ≤ INT_MAX then .ok value
    else .error .outOfRange

/-- The implicit conversion from `int` to `unsigned int`. -/
def intToUnsigned (value : Int) : UInt32 := UInt32.ofInt value

/-! ## Decimal numerals -/

/-- A cost the way the documentation of the data files writes it: one digit or
more, and no more than an `int` holds. -/
def IsDecimal (s : Str) (value : Nat) : Prop :=
  s ≠ [] ∧ (∀ c ∈ s, isDigit c = true) ∧ digitsValue s = value ∧ value ≤ INT_MAX

instance (s : Str) (value : Nat) : Decidable (IsDecimal s value) :=
  decidable_of_iff
    (s.isEmpty = false ∧ s.all isDigit = true ∧ digitsValue s = value ∧ value ≤ INT_MAX)
    (by rw [IsDecimal, List.isEmpty_eq_false_iff, List.all_eq_true])

theorem not_isSpace_of_isDigit {c : Byte} (h : isDigit c = true) : isSpace c = false := by
  revert h
  simp only [isDigit, isSpace, Bool.and_eq_true, decide_eq_true_eq, Bool.or_eq_false_iff,
    beq_eq_false_iff_ne, Bool.and_eq_false_iff, decide_eq_false_iff_not, UInt8.le_iff_toNat_le,
    ne_eq, ← UInt8.toNat_inj]
  simp only [UInt8.reduceToNat]
  omega

theorem not_sign_of_isDigit {c : Byte} (h : isDigit c = true) : c ≠ minus ∧ c ≠ plus := by
  revert h
  simp only [isDigit, minus, plus, Bool.and_eq_true, decide_eq_true_eq, UInt8.le_iff_toNat_le,
    ne_eq, ← UInt8.toNat_inj]
  simp only [UInt8.reduceToNat]
  omega

/-- `stoi` reads a decimal numeral as the number it denotes. -/
theorem stoi_of_isDecimal {s : Str} {value : Nat} (h : IsDecimal s value) :
    stoi s = .ok value := by
  obtain ⟨hne, hdigits, hvalue, hmax⟩ := h
  obtain ⟨c, rest, rfl⟩ := List.exists_cons_of_ne_nil hne
  have hc : isDigit c = true := hdigits c List.mem_cons_self
  have hspace : (c :: rest).dropWhile isSpace = c :: rest := by
    rw [List.dropWhile_cons_of_neg (by simp [not_isSpace_of_isDigit hc])]
  have hsign : takeSign (c :: rest) = (false, c :: rest) := by
    rw [takeSign, if_neg (not_sign_of_isDigit hc).1, if_neg (not_sign_of_isDigit hc).2]
  have htake : (c :: rest).takeWhile isDigit = c :: rest :=
    List.takeWhile_eq_self_iff.mpr hdigits
  have hrange : -(INT_MAX : Int) - 1 ≤ (value : Int) ∧ (value : Int) ≤ INT_MAX := by
    simp only [INT_MAX] at hmax ⊢
    omega
  simp only [stoi, hspace, hsign, htake, hvalue, Bool.false_eq_true, if_false, if_neg hne,
    if_pos hrange]

/-- The integer that a text is, from its first character to its last: an optional
sign, and then one digit or more. -/
def writtenInt (s : Str) : Option Int :=
  let signed := takeSign s
  if signed.2 ≠ [] ∧ signed.2.all isDigit = true then
    some (if signed.1 then -(digitsValue signed.2 : Int) else digitsValue signed.2)
  else none

/-- `stoi` reads a written integer as what it is, if an `int` holds it. -/
theorem stoi_of_writtenInt {s : Str} {value : Int} (h : writtenInt s = some value) :
    stoi s = if -(INT_MAX : Int) - 1 ≤ value ∧ value ≤ INT_MAX then .ok value
      else .error .outOfRange := by
  rw [writtenInt] at h
  split at h
  · rename_i hdigits
    obtain ⟨hne, hall⟩ := hdigits
    obtain rfl := Option.some.inj h
    have hspace : s.dropWhile isSpace = s := by
      cases s with
      | nil => rfl
      | cons c rest =>
          have hc : isSpace c = false := by
            by_cases hminus : c = minus
            · rw [hminus]; rfl
            · by_cases hplus : c = plus
              · rw [hplus]; rfl
              · rw [takeSign, if_neg hminus, if_neg hplus, List.all_cons,
                  Bool.and_eq_true] at hall
                exact not_isSpace_of_isDigit hall.1
          rw [List.dropWhile_cons_of_neg (by simp [hc])]
    have htake : (takeSign s).2.takeWhile isDigit = (takeSign s).2 :=
      List.takeWhile_eq_self_iff.mpr (List.all_eq_true.mp hall)
    simp only [stoi, hspace, htake, if_neg hne]
  · cases h

theorem toNat_intToUnsigned {value : Nat} (h : value ≤ INT_MAX) :
    (intToUnsigned value).toNat = value := by
  simp only [INT_MAX] at h
  have hmod : ((value : Int) % 2 ^ 32).toNat = value := by omega
  rw [intToUnsigned, UInt32.ofInt, hmod, UInt32.toNat_ofNat']
  omega

example : stoi (str " -12x") = .ok (-12) := by decide
example : stoi (str "2147483648") = .error .outOfRange := by decide

end RoutePlanner.Std
