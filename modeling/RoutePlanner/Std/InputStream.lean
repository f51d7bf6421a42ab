/-
# Numbers typed into a stream

`std::cin` as far as `>>` into a `size_t` and `ignore()` show it: what was typed and
not read yet, whether the end of the input follows, and whether the stream is good.
`>>` skips blanks and takes an optional sign and all digits behind it.  With no digit it
stores 0, with too many the largest number, and both times the stream is good no
longer; then every later read returns at once and stores nothing.

A stream whose end is not reached yet makes a read wait.
-/

import RoutePlanner.Std.Chars

namespace RoutePlanner.Std

structure InputStream where
  rest : Str
  closed : Bool
  good : Bool
  deriving DecidableEq

namespace InputStream

def SIZE_MAX : UInt64 := 18446744073709551615

/-- What digits are stored as, and whether they are a number that fits.  A minus is
taken modulo `2 ^ 64`. -/
def storeDigits (negative : Bool) (digits : Str) : UInt64 × Bool :=
  if digits = [] then (0, false)
  else if 2 ^ 64 ≤ digitsValue digits then (SIZE_MAX, false)
  else if negative then (-UInt64.ofNat (digitsValue digits), true)
  else (UInt64.ofNat (digitsValue digits), true)

/-- `cin >> number`: nothing while it waits, else what is stored, if anything is. -/
def readNumber (cin : InputStream) : Option (Option UInt64 × InputStream) :=
  if cin.good = false then some (none, cin)
  else
    let text := cin.rest.dropWhile isSpace
    if text = [] then
      if cin.closed then some (none, { cin with rest := [], good := false }) else none
    else
      let signed := takeSign text
      let digits := signed.2.takeWhile isDigit
      let rest := signed.2.dropWhile isDigit
      if rest = [] ∧ cin.closed = false then none
      else
        let stored := storeDigits signed.1 digits
        -- the end of the input behind the digits is noticed, too
        some (some stored.1, { cin with rest, good := stored.2 && !rest.isEmpty })

/-- `cin.ignore()`. -/
def ignore (cin : InputStream) : Option InputStream :=
  if cin.good = false then some cin
  else
    match cin.rest with
    | _ :: rest => some { cin with rest }
    | [] => if cin.closed then some { cin with good := false } else none

/-- A number and the character behind it. -/
def enter (cin : InputStream) : Option (Option UInt64 × InputStream) := do
  let (stored, cin) ← cin.readNumber
  let cin ← cin.ignore
  return (stored, cin)

theorem enter_of_not_good {cin : InputStream} (h : cin.good = false) :
    cin.enter = some (none, cin) := by
  simp only [enter, readNumber, ignore, if_pos h, Option.bind_eq_bind, Option.bind_some]
  rfl

theorem length_takeSign_le (text : Str) : (takeSign text).2.length ≤ text.length := by
  cases text with
  | nil => exact Nat.le_refl 0
  | cons c text =>
      rw [takeSign]
      split
      · exact Nat.le_succ _
      · split
        · exact Nat.le_succ _
        · exact Nat.le_refl _

/-- A stream that is good after a number has stored it and has more to read. -/
theorem readNumber_good {cin cin' : InputStream} {stored : Option UInt64}
    (h : cin.readNumber = some (stored, cin')) (hgood : cin'.good = true) :
    stored.isSome = true ∧ cin'.rest ≠ [] ∧ cin'.rest.length ≤ cin.rest.length := by
  rw [readNumber] at h
  split at h
  · rename_i hbad
    obtain ⟨-, rfl⟩ := Prod.mk.inj (Option.some.inj h)
    rw [hbad] at hgood
    cases hgood
  · dsimp only at h
    split at h
    · split at h
      · obtain ⟨-, rfl⟩ := Prod.mk.inj (Option.some.inj h)
        cases hgood
      · cases h
    · split at h
      · cases h
      · obtain ⟨rfl, rfl⟩ := Prod.mk.inj (Option.some.inj h)
        rw [Bool.and_eq_true, Bool.not_eq_true', List.isEmpty_eq_false_iff] at hgood
        exact ⟨rfl, hgood.2, (List.dropWhile_suffix _).length_le.trans
          ((length_takeSign_le _).trans (List.dropWhile_suffix _).length_le)⟩

theorem enter_good {cin cin' : InputStream} {stored : Option UInt64}
    (h : cin.enter = some (stored, cin')) (hgood : cin'.good = true) :
    stored.isSome = true ∧ cin'.rest.length < cin.rest.length := by
  obtain ⟨⟨stored₁, cin₁⟩, hread, hrest⟩ := Option.bind_eq_some_iff.mp h
  obtain ⟨cin₂, hignore, heq⟩ := Option.bind_eq_some_iff.mp hrest
  obtain ⟨rfl, rfl⟩ := Prod.mk.inj (Option.some.inj heq)
  rw [ignore] at hignore
  split at hignore
  · rename_i hbad
    obtain rfl := Option.some.inj hignore
    rw [hbad] at hgood
    cases hgood
  · rename_i hread_good
    obtain ⟨hstored, hne, hle⟩ := readNumber_good hread (Bool.not_eq_false _ ▸ hread_good)
    split at hignore
    · rename_i c rest hcons
      obtain rfl := Option.some.inj hignore
      rw [hcons] at hle
      exact ⟨hstored, hle⟩
    · rename_i hnil
      exact absurd hnil hne

/-! ## What a text says -/

/-- What the reads of a stream store one after the other until a read waits, which is
false, or the stream is not good any more, which is true. -/
def readings (cin : InputStream) : List UInt64 × Bool :=
  match _h : cin.enter with
  | none => ([], false)
  | some (stored, cin') =>
      if _hgood : cin'.good = true then
        (stored.toList ++ (readings cin').1, (readings cin').2)
      else (stored.toList, true)
termination_by cin.rest.length
decreasing_by all_goals exact (enter_good ‹_› ‹_›).2

theorem readings_of_waits {cin : InputStream} (h : cin.enter = none) :
    cin.readings = ([], false) := by
  rw [readings]
  split
  · rfl
  · rename_i heq
    rw [h] at heq
    cases heq

theorem readings_of_failed {cin cin' : InputStream} {stored : Option UInt64}
    (h : cin.enter = some (stored, cin')) (hgood : cin'.good = false) :
    cin.readings = (stored.toList, true) := by
  rw [readings]
  split
  · rename_i heq
    rw [h] at heq
    cases heq
  · rename_i heq
    obtain ⟨rfl, rfl⟩ := Prod.mk.inj (Option.some.inj (h.symm.trans heq))
    rw [dif_neg (by rw [hgood]; exact Bool.false_ne_true)]

theorem readings_of_number {cin cin' : InputStream} {number : UInt64}
    (h : cin.enter = some (some number, cin')) (hgood : cin'.good = true) :
    cin.readings = (number :: cin'.readings.1, cin'.readings.2) := by
  rw [readings]
  split
  · rename_i heq
    rw [h] at heq
    cases heq
  · rename_i heq
    obtain ⟨rfl, rfl⟩ := Prod.mk.inj (Option.some.inj (h.symm.trans heq))
    rw [dif_pos hgood]
    rfl

theorem readings_of_not_good {cin : InputStream} (h : cin.good = false) :
    cin.readings = ([], true) :=
  readings_of_failed (enter_of_not_good h) h

/-- A stream waits, or fails, or delivers a number and has less to read. -/
theorem readingsInduction {motive : InputStream → Prop}
    (waits : ∀ cin, cin.enter = none → motive cin)
    (failed : ∀ cin stored cin', cin.enter = some (stored, cin') → cin'.good = false → motive cin)
    (number : ∀ cin number cin', cin.enter = some (some number, cin') → cin'.good = true →
      motive cin' → motive cin)
    (cin : InputStream) : motive cin := by
  induction hlength : cin.rest.length using Nat.strong_induction_on generalizing cin with
  | _ length ih =>
      cases henter : cin.enter with
      | none => exact waits cin henter
      | some result =>
          obtain ⟨stored, cin'⟩ := result
          by_cases hgood : cin'.good = true
          · obtain ⟨hstored, hlt⟩ := enter_good henter hgood
            obtain ⟨n, rfl⟩ := Option.isSome_iff_exists.mp hstored
            exact number cin n cin' henter hgood (ih _ (hlength ▸ hlt) cin' rfl)
          · exact failed cin stored cin' henter (Bool.not_eq_true _ ▸ hgood)

/-- Blanks, digits that fit, and one more character. -/
def IsNumeral (text : Str) (number : UInt64) : Prop :=
  ∃ blanks digits c, text = blanks ++ digits ++ [c] ∧ (∀ b ∈ blanks, isSpace b = true) ∧
    digits ≠ [] ∧ (∀ d ∈ digits, isDigit d = true) ∧ isDigit c = false ∧
    digitsValue digits = number.toNat

/-- Such a text is read as its number. -/
theorem enter_of_isNumeral {text : Str} {number : UInt64} (h : IsNumeral text number)
    (tail : Str) (closed : Bool) :
    enter ⟨text ++ tail, closed, true⟩ = some (some number, ⟨tail, closed, true⟩) := by
  obtain ⟨blanks, digits, c, rfl, hblanks, hne, hdigits, hc, hvalue⟩ := h
  obtain ⟨d, digits, rfl⟩ := List.exists_cons_of_ne_nil hne
  have hd : isDigit d = true := hdigits d List.mem_cons_self
  have htext : (blanks ++ d :: digits ++ [c] ++ tail).dropWhile isSpace =
      d :: (digits ++ c :: tail) := by
    simp only [List.append_assoc, List.cons_append, List.nil_append]
    rw [List.dropWhile_append_of_pos hblanks,
      List.dropWhile_cons_of_neg (by rw [not_isSpace_of_isDigit hd]; exact Bool.false_ne_true)]
  have hsign : takeSign (d :: (digits ++ c :: tail)) = (false, d :: digits ++ c :: tail) := by
    rw [takeSign, if_neg (not_sign_of_isDigit hd).1, if_neg (not_sign_of_isDigit hd).2]
    rfl
  have hnot : ¬ isDigit c = true := by rw [hc]; exact Bool.false_ne_true
  have htake : (d :: digits ++ c :: tail).takeWhile isDigit = d :: digits := by
    rw [List.takeWhile_append_of_pos hdigits, List.takeWhile_cons_of_neg hnot, List.append_nil]
  have hdrop : (d :: digits ++ c :: tail).dropWhile isDigit = c :: tail := by
    rw [List.dropWhile_append_of_pos hdigits, List.dropWhile_cons_of_neg hnot]
  have hstored : storeDigits false (d :: digits) = (number, true) := by
    rw [storeDigits, if_neg (List.cons_ne_nil _ _), hvalue,
      if_neg (Nat.not_le_of_lt number.toNat_lt)]
    simp
  have hread : readNumber ⟨blanks ++ d :: digits ++ [c] ++ tail, closed, true⟩ =
      some (some number, ⟨c :: tail, closed, true⟩) := by
    simp only [readNumber, htext, hsign, htake, hdrop, hstored]
    simp
  rw [enter, hread]
  rfl

/-- And a text of many as their numbers. -/
theorem readings_of_numerals {texts : List Str} {numbers : List UInt64}
    (h : List.Forall₂ IsNumeral texts numbers) (tail : Str) (closed : Bool) :
    readings ⟨texts.flatten ++ tail, closed, true⟩ =
      (numbers ++ (readings ⟨tail, closed, true⟩).1, (readings ⟨tail, closed, true⟩).2) := by
  induction h with
  | nil => rfl
  | @cons text number texts numbers hnumeral _ ih =>
      rw [List.flatten_cons, List.append_assoc,
        readings_of_number (enter_of_isNumeral hnumeral _ closed) rfl, ih]
      rfl

/-- The first character of a word: no blank, no sign and no digit. -/
def StartsWord (c : Byte) : Prop :=
  isSpace c = false ∧ isDigit c = false ∧ c ≠ plus ∧ c ≠ minus

instance (c : Byte) : Decidable (StartsWord c) := by
  unfold StartsWord
  infer_instance

/-- A word is read as 0, stays where it is, and the stream has failed. -/
theorem enter_of_startsWord {blanks : Str} (hblanks : ∀ b ∈ blanks, isSpace b = true) {c : Byte}
    (hc : StartsWord c) (rest : Str) (closed : Bool) :
    enter ⟨blanks ++ c :: rest, closed, true⟩ = some (some 0, ⟨c :: rest, closed, false⟩) := by
  obtain ⟨hspace, hdigit, hplus, hminus⟩ := hc
  have hnot : ¬ isDigit c = true := by rw [hdigit]; exact Bool.false_ne_true
  have htext : (blanks ++ c :: rest).dropWhile isSpace = c :: rest := by
    rw [List.dropWhile_append_of_pos hblanks,
      List.dropWhile_cons_of_neg (by rw [hspace]; exact Bool.false_ne_true)]
  have hsign : takeSign (c :: rest) = (false, c :: rest) := by
    rw [takeSign, if_neg hminus, if_neg hplus]
  have hread : readNumber ⟨blanks ++ c :: rest, closed, true⟩ =
      some (some 0, ⟨c :: rest, closed, false⟩) := by
    simp only [readNumber, htext, hsign, List.takeWhile_cons_of_neg hnot,
      List.dropWhile_cons_of_neg hnot, storeDigits]
    simp
  rw [enter, hread]
  rfl

/-- Numbers and then a word. -/
theorem readings_of_word {texts : List Str} {numbers : List UInt64}
    (h : List.Forall₂ IsNumeral texts numbers) {blanks : Str}
    (hblanks : ∀ b ∈ blanks, isSpace b = true) {c : Byte} (hc : StartsWord c) (rest : Str)
    (closed : Bool) :
    readings ⟨texts.flatten ++ (blanks ++ c :: rest), closed, true⟩ = (numbers ++ [0], true) := by
  rw [readings_of_numerals h, readings_of_failed (enter_of_startsWord hblanks hc rest closed) rfl]
  rfl

end InputStream

end RoutePlanner.Std
