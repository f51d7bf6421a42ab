/-
# The structs that travel on the wire

Messages are copied byte by byte out of structs in memory, so what travels is
their layout: words of eight bytes are aligned to eight, and the gaps are filled
with bytes that mean nothing but are copied all the same.  Both ends share the
layout of a 64-bit little-endian machine.  A `bool` is kept as the byte that was
copied into it.
-/

import RoutePlanner.Std.LittleEndian

namespace RoutePlanner.Messages

open RoutePlanner.Std
open RoutePlanner.Std.LittleEndian

structure MsgHeaderData where
  id : UInt32
  padding : UInt32
  length : UInt64
  timestamp : UInt64
  deriving DecidableEq

/-- `sizeof(MsgHeaderData)`. -/
def MSG_HEADER_SIZE : Nat := 24

namespace MsgHeaderData

def toBytes (data : MsgHeaderData) : List Byte :=
  word32 data.id ++ (word32 data.padding ++ (word64 data.length ++ (word64 data.timestamp ++ [])))

def ofBytes (bytes : List Byte) : MsgHeaderData where
  id := read32 bytes
  padding := read32 (bytes.drop 4)
  length := read64 ((bytes.drop 4).drop 4)
  timestamp := read64 (((bytes.drop 4).drop 4).drop 8)

@[simp]
theorem length_toBytes (data : MsgHeaderData) : data.toBytes.length = MSG_HEADER_SIZE := by
  simp [toBytes, MSG_HEADER_SIZE]

@[simp]
theorem ofBytes_toBytes (data : MsgHeaderData) : ofBytes data.toBytes = data := by
  simp only [toBytes, ofBytes, read32_word32, read64_word64, drop_word32, drop_word64]

end MsgHeaderData

structure MsgLocationsRequestData where
  startLocation : UInt64
  deriving DecidableEq

namespace MsgLocationsRequestData

def toBytes (data : MsgLocationsRequestData) : List Byte := word64 data.startLocation ++ []

def ofBytes (bytes : List Byte) : MsgLocationsRequestData := ⟨read64 bytes⟩

@[simp]
theorem length_toBytes (data : MsgLocationsRequestData) : data.toBytes.length = 8 := by
  simp [toBytes]

@[simp]
theorem ofBytes_toBytes (data : MsgLocationsRequestData) : ofBytes data.toBytes = data := by
  simp only [toBytes, ofBytes, read64_word64]

end MsgLocationsRequestData

def MSG_LOCATIONS_MAX_CHARS : Nat := 100

/-- `char[n]`. -/
structure CharArray (n : Nat) where
  chars : Str
  length_eq : chars.length = n
  deriving DecidableEq

namespace CharArray

variable {n : Nat}

/-- `memset`. -/
def fill (n : Nat) (c : Byte) : CharArray n := ⟨List.replicate n c, List.length_replicate ..⟩

/-- The first `n` bytes.  Sources that are too short are completed by zeros; the
callers have checked the length. -/
def ofBytes (n : Nat) (bytes : List Byte) : CharArray n :=
  ⟨(bytes ++ List.replicate n 0).take n, by
    rw [List.length_take, List.length_append, List.length_replicate]
    omega⟩

/-- `memcpy` of `s` to position `i`, when it fits. -/
def write (a : CharArray n) (i : Nat) (s : Str) (h : i + s.length ≤ n) : CharArray n :=
  ⟨a.chars.take i ++ s ++ a.chars.drop (i + s.length), by
    have hlen := a.length_eq
    simp only [List.length_append, List.length_take, List.length_drop]
    omega⟩

theorem ofBytes_append (a : CharArray n) (rest : List Byte) : ofBytes n (a.chars ++ rest) = a := by
  cases a with
  | mk chars h =>
      rw [ofBytes, CharArray.mk.injEq, List.append_assoc, List.take_left' h]

/-- What stands before the written part stays, and the written part follows. -/
theorem take_write (a : CharArray n) {i : Nat} {s : Str} (h : i + s.length ≤ n) :
    (a.write i s h).chars.take (i + s.length) = a.chars.take i ++ s := by
  have hlen := a.length_eq
  have hprefix : (a.chars.take i ++ s).length = i + s.length := by
    rw [List.length_append, List.length_take]
    omega
  rw [write, List.take_left' hprefix]

end CharArray

structure MsgLocationsResponseData where
  charCount : UInt64
  locations : CharArray MSG_LOCATIONS_MAX_CHARS
  isPaginated : Byte
  padding : CharArray 3
  deriving DecidableEq

namespace MsgLocationsResponseData

/-- The constructor: the array is filled with blanks. -/
def create : MsgLocationsResponseData := ⟨0, .fill _ 32, 0, .fill _ 0⟩

def toBytes (data : MsgLocationsResponseData) : List Byte :=
  word64 data.charCount ++ (data.locations.chars ++ (data.isPaginated :: data.padding.chars))

def ofBytes (bytes : List Byte) : MsgLocationsResponseData where
  charCount := read64 bytes
  locations := CharArray.ofBytes _ (bytes.drop 8)
  isPaginated := ((bytes.drop 8).drop MSG_LOCATIONS_MAX_CHARS).headD 0
  padding := CharArray.ofBytes _ (((bytes.drop 8).drop MSG_LOCATIONS_MAX_CHARS).drop 1)

@[simp]
theorem length_toBytes (data : MsgLocationsResponseData) : data.toBytes.length = 112 := by
  simp [toBytes, data.locations.length_eq, data.padding.length_eq, MSG_LOCATIONS_MAX_CHARS]

@[simp]
theorem ofBytes_toBytes (data : MsgLocationsResponseData) : ofBytes data.toBytes = data := by
  have hpadding : CharArray.ofBytes 3 data.padding.chars = data.padding := by
    simpa using data.padding.ofBytes_append []
  simp only [toBytes, ofBytes, read64_word64, drop_word64, CharArray.ofBytes_append,
    List.drop_left' data.locations.length_eq, List.headD_cons, List.drop_succ_cons, List.drop_zero,
    hpadding]

end MsgLocationsResponseData

structure MsgRouteRequestData where
  startLocation : UInt64
  endLocation : UInt64
  deriving DecidableEq

namespace MsgRouteRequestData

def toBytes (data : MsgRouteRequestData) : List Byte :=
  word64 data.startLocation ++ (word64 data.endLocation ++ [])

def ofBytes (bytes : List Byte) : MsgRouteRequestData := ⟨read64 bytes, read64 (bytes.drop 8)⟩

@[simp]
theorem length_toBytes (data : MsgRouteRequestData) : data.toBytes.length = 16 := by
  simp [toBytes]

@[simp]
theorem ofBytes_toBytes (data : MsgRouteRequestData) : ofBytes data.toBytes = data := by
  simp only [toBytes, ofBytes, read64_word64, drop_word64]

end MsgRouteRequestData

structure MsgRouteResponseData where
  cost : UInt64
  deriving DecidableEq

namespace MsgRouteResponseData

def toBytes (data : MsgRouteResponseData) : List Byte := word64 data.cost ++ []

def ofBytes (bytes : List Byte) : MsgRouteResponseData := ⟨read64 bytes⟩

@[simp]
theorem length_toBytes (data : MsgRouteResponseData) : data.toBytes.length = 8 := by
  simp [toBytes]

@[simp]
theorem ofBytes_toBytes (data : MsgRouteResponseData) : ofBytes data.toBytes = data := by
  simp only [toBytes, ofBytes, read64_word64]

end MsgRouteResponseData

end RoutePlanner.Messages
