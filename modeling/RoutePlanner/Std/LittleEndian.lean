/-
# Little-endian words in memory

What `memcpy` makes of an unsigned integer, and back.  Words are read from the
front of a list of bytes, so that a struct is read field by field.
-/

import RoutePlanner.Std.Chars

namespace RoutePlanner.Std.LittleEndian

/-- The lowest `width` bytes of a number, lowest first. -/
def toBytes : Nat → Nat → List Byte
  | 0, _ => []
  | width + 1, value => UInt8.ofNat value :: toBytes width (value / 256)

/-- The number that bytes stand for, lowest first. -/
def ofBytes : List Byte → Nat
  | [] => 0
  | b :: bytes => b.toNat + 256 * ofBytes bytes

@[simp]
theorem length_toBytes (width value : Nat) : (toBytes width value).length = width := by
  induction width generalizing value with
  | zero => rfl
  | succ width ih => rw [toBytes, List.length_cons, ih]

theorem ofBytes_toBytes (width value : Nat) (h : value < 256 ^ width) :
    ofBytes (toBytes width value) = value := by
  induction width generalizing value with
  | zero =>
      rw [Nat.pow_zero, Nat.lt_one_iff] at h
      rw [h]
      rfl
  | succ width ih =>
      have hrest : value / 256 < 256 ^ width := by
        rw [Nat.div_lt_iff_lt_mul (by decide)]
        exact h
      rw [toBytes, ofBytes, ih _ hrest, UInt8.toNat_ofNat']
      exact Nat.mod_add_div value 256

/-- A `uint32_t` in memory. -/
def word32 (x : UInt32) : List Byte := toBytes 4 x.toNat

/-- A `uint64_t` or a `size_t` in memory. -/
def word64 (x : UInt64) : List Byte := toBytes 8 x.toNat

/-- The word at the front of the bytes. -/
def read32 (bytes : List Byte) : UInt32 := UInt32.ofNat (ofBytes (bytes.take 4))

/-- The word at the front of the bytes. -/
def read64 (bytes : List Byte) : UInt64 := UInt64.ofNat (ofBytes (bytes.take 8))

@[simp]
theorem length_word32 (x : UInt32) : (word32 x).length = 4 := length_toBytes ..

@[simp]
theorem length_word64 (x : UInt64) : (word64 x).length = 8 := length_toBytes ..

@[simp]
theorem read32_word32 (x : UInt32) (rest : List Byte) : read32 (word32 x ++ rest) = x := by
  rw [read32, List.take_left' (length_word32 x), word32, ofBytes_toBytes _ _ x.toNat_lt,
    UInt32.ofNat_toNat]

@[simp]
theorem read64_word64 (x : UInt64) (rest : List Byte) : read64 (word64 x ++ rest) = x := by
  rw [read64, List.take_left' (length_word64 x), word64, ofBytes_toBytes _ _ x.toNat_lt,
    UInt64.ofNat_toNat]

@[simp]
theorem drop_word32 (x : UInt32) (rest : List Byte) : (word32 x ++ rest).drop 4 = rest :=
  List.drop_left' (length_word32 x)

@[simp]
theorem drop_word64 (x : UInt64) (rest : List Byte) : (word64 x ++ rest).drop 8 = rest :=
  List.drop_left' (length_word64 x)

end RoutePlanner.Std.LittleEndian
