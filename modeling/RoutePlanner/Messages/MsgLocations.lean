/-
# A page of location names

A locations response holds names one behind the other, each followed by a
separator, in an array of a hundred characters.  A name that does not fit only
marks the response as paginated; a later one may still be added.  Seen from the
names, filling a response is greedy paging with one character more for each name.
-/

import RoutePlanner.Messages.MsgHeader
import RoutePlanner.Math.GreedyPages

namespace RoutePlanner.Messages

open RoutePlanner.Std
open RoutePlanner.Math

/-- `;` -/
def MSG_LOCATIONS_SEP_CHAR : Byte := 59

namespace MsgLocationsResponseData

/-- `AddLocation`.  The sum of sizes is a `size_t`; where it would wrap, the copy
leaves the array. -/
def addLocation (data : MsgLocationsResponseData) (locationName : Str) :
    Except Fault (Bool × MsgLocationsResponseData) :=
  let newCharCount := data.charCount + UInt64.ofNat locationName.length
  if newCharCount < UInt64.ofNat MSG_LOCATIONS_MAX_CHARS then
    if h : data.charCount.toNat + locationName.length < MSG_LOCATIONS_MAX_CHARS then
      .ok (true,
        { data with
          charCount := newCharCount + 1
          locations := (data.locations.write data.charCount.toNat locationName h.le).write
            (data.charCount.toNat + locationName.length) [MSG_LOCATIONS_SEP_CHAR] h })
    else .error .writeOutOfBounds
  else .ok (false, { data with isPaginated := 1 })

/-- `GetLocations`: what a separator ends, in the characters counted. -/
def getLocations (data : MsgLocationsResponseData) : Except Fault (List Str) :=
  if data.charCount.toNat ≤ MSG_LOCATIONS_MAX_CHARS then
    .ok (Text.terminated MSG_LOCATIONS_SEP_CHAR
      (data.locations.chars.take data.charCount.toNat))
  else .error .readOutOfBounds

/-- `AddLocation` for every name of a list; the results are not looked at. -/
def addLocations (data : MsgLocationsResponseData) (names : List Str) :
    Except Fault MsgLocationsResponseData :=
  names.foldlM (fun data name => do
    let (_, data) ← data.addLocation name
    return data) data

end MsgLocationsResponseData

/-- A name with its separator. -/
def nameSize (name : Str) : Nat := name.length + 1

/-- The greedy page of these names. -/
def page (names : List Str) : List Str × Bool :=
  GreedyPages.fill nameSize MSG_LOCATIONS_MAX_CHARS names

/-- The characters of names that are each followed by a separator. -/
def separated (names : List Str) : Str :=
  names.flatMap fun name => name ++ [MSG_LOCATIONS_SEP_CHAR]

namespace MsgLocationsResponseData

/-- The response holds these names. -/
structure Lists (data : MsgLocationsResponseData) (names : List Str) : Prop where
  count : data.charCount.toNat = GreedyPages.total nameSize names
  le : GreedyPages.total nameSize names ≤ MSG_LOCATIONS_MAX_CHARS
  chars : data.locations.chars.take data.charCount.toNat = separated names

theorem lists_create : Lists create [] := ⟨rfl, Nat.zero_le _, rfl⟩

section AddLocation

variable {data : MsgLocationsResponseData} {names : List Str} {name : Str}

/-- No sum of a count and the size of a string wraps. -/
theorem toNat_newCharCount (h : Lists data names) (hname : name.length < 2 ^ 63) :
    (data.charCount + UInt64.ofNat name.length).toNat = data.charCount.toNat + name.length := by
  have hcount := h.count
  have hle := h.le
  simp only [MSG_LOCATIONS_MAX_CHARS] at hle
  rw [UInt64.toNat_add, UInt64.toNat_ofNat_of_lt' (Nat.lt_trans hname (by decide))]
  omega

/-- A name that fits in the room left is added behind the others. -/
theorem addLocation_of_fits (h : Lists data names) (hname : name.length < 2 ^ 63)
    (hfits : nameSize name ≤ MSG_LOCATIONS_MAX_CHARS - GreedyPages.total nameSize names) :
    ∃ data', data.addLocation name = .ok (true, data') ∧ Lists data' (names ++ [name]) ∧
      data'.isPaginated = data.isPaginated := by
  have hsum := toNat_newCharCount h hname
  have hlt : data.charCount.toNat + name.length < MSG_LOCATIONS_MAX_CHARS := by
    have hcount := h.count
    rw [nameSize] at hfits
    omega
  have hnew : data.charCount + UInt64.ofNat name.length < UInt64.ofNat MSG_LOCATIONS_MAX_CHARS := by
    rw [UInt64.lt_iff_toNat_lt, hsum]
    exact hlt
  have htotal : GreedyPages.total nameSize (names ++ [name]) =
      data.charCount.toNat + name.length + 1 := by
    rw [GreedyPages.total_append, GreedyPages.total_cons, GreedyPages.total_nil, nameSize, h.count]
    omega
  have hcount : (data.charCount + UInt64.ofNat name.length + 1).toNat =
      data.charCount.toNat + name.length + 1 := by
    simp only [MSG_LOCATIONS_MAX_CHARS] at hlt
    rw [UInt64.toNat_add, hsum]
    exact Nat.mod_eq_of_lt (by simp only [UInt64.reduceToNat]; omega)
  rw [addLocation]
  simp only [if_pos hnew, dif_pos hlt]
  refine ⟨_, rfl, ⟨?_, ?_, ?_⟩, rfl⟩
  · rw [htotal, ← hcount]
  · rw [htotal]
    exact hlt
  · have hwritten := CharArray.take_write
      (data.locations.write data.charCount.toNat name hlt.le) (s := [MSG_LOCATIONS_SEP_CHAR])
      (i := data.charCount.toNat + name.length) hlt
    rw [List.length_singleton] at hwritten
    simp only [hcount, hwritten, CharArray.take_write, h.chars]
    simp only [separated, List.flatMap_append, List.flatMap_cons, List.flatMap_nil,
      List.append_assoc, List.append_nil]

/-- Any other name only marks the response. -/
theorem addLocation_of_not_fits (h : Lists data names) (hname : name.length < 2 ^ 63)
    (hfits : ¬ nameSize name ≤ MSG_LOCATIONS_MAX_CHARS - GreedyPages.total nameSize names) :
    data.addLocation name = .ok (false, { data with isPaginated := 1 }) := by
  have hnew : ¬ data.charCount + UInt64.ofNat name.length <
      UInt64.ofNat MSG_LOCATIONS_MAX_CHARS := by
    have hcount := h.count
    have hle := h.le
    rw [UInt64.lt_iff_toNat_lt, toNat_newCharCount h hname,
      UInt64.toNat_ofNat_of_lt' (by decide)]
    rw [nameSize] at hfits
    omega
  rw [addLocation]
  simp only [if_neg hnew]

/-- Offering names to a response fills it greedily. -/
theorem addLocations_spec (h : Lists data names) (offered : List Str)
    (hoffered : ∀ name ∈ offered, name.length < 2 ^ 63) :
    ∃ data', data.addLocations offered = .ok data' ∧
      Lists data' (names ++ (GreedyPages.fill nameSize
        (MSG_LOCATIONS_MAX_CHARS - GreedyPages.total nameSize names) offered).1) ∧
      data'.isPaginated = if (GreedyPages.fill nameSize
        (MSG_LOCATIONS_MAX_CHARS - GreedyPages.total nameSize names) offered).2 then 1
        else data.isPaginated := by
  induction offered generalizing data names with
  | nil => exact ⟨data, rfl, by rwa [GreedyPages.fill, List.append_nil], rfl⟩
  | cons name offered ih =>
      have hname := hoffered name List.mem_cons_self
      have hrest : ∀ other ∈ offered, other.length < 2 ^ 63 :=
        fun other hother => hoffered other (List.mem_cons_of_mem _ hother)
      rw [GreedyPages.fill]
      by_cases hfits : nameSize name ≤ MSG_LOCATIONS_MAX_CHARS - GreedyPages.total nameSize names
      · obtain ⟨data₁, hadd, h₁, hpaginated⟩ := addLocation_of_fits h hname hfits
        obtain ⟨data', hall, h', hpaginated'⟩ := ih h₁ hrest
        have hroom : MSG_LOCATIONS_MAX_CHARS - GreedyPages.total nameSize (names ++ [name]) =
            MSG_LOCATIONS_MAX_CHARS - GreedyPages.total nameSize names - nameSize name := by
          rw [GreedyPages.total_append, GreedyPages.total_cons, GreedyPages.total_nil]
          omega
        rw [hroom] at h' hpaginated'
        rw [if_pos hfits]
        refine ⟨data', ?_, by simpa using h', by rw [hpaginated', hpaginated]⟩
        rw [addLocations, List.foldlM_cons, hadd]
        exact hall
      · have hadd := addLocation_of_not_fits h hname hfits
        obtain ⟨data', hall, h', hpaginated'⟩ :=
          @ih { data with isPaginated := 1 } _ ⟨h.count, h.le, h.chars⟩ hrest
        rw [if_neg hfits]
        refine ⟨data', ?_, h', by rw [hpaginated', ite_self, if_pos rfl]⟩
        rw [addLocations, List.foldlM_cons, hadd]
        exact hall

end AddLocation

/-- A new response to which these names were offered holds a greedy page of them,
and is marked exactly when that page passed over a name. -/
theorem addLocations_create (offered : List Str)
    (hoffered : ∀ name ∈ offered, name.length < 2 ^ 63) :
    ∃ data, create.addLocations offered = .ok data ∧ Lists data (page offered).1 ∧
      data.isPaginated = if (page offered).2 then 1 else 0 := by
  obtain ⟨data, hall, hlists, hpaginated⟩ := addLocations_spec lists_create offered hoffered
  exact ⟨data, hall, hlists, hpaginated⟩

/-- Names without the separator are read back. -/
theorem getLocations_of_lists {data : MsgLocationsResponseData} {names : List Str}
    (h : Lists data names) (hsep : ∀ name ∈ names, MSG_LOCATIONS_SEP_CHAR ∉ name) :
    data.getLocations = .ok names := by
  rw [getLocations, if_pos (h.count ▸ h.le), h.chars, separated, Text.terminated_flatMap hsep]

/-! ## Names with the separator in them -/

/-- The names that a receiver finds on a page. -/
def countRead (names : List Str) : Nat := (separated names).count MSG_LOCATIONS_SEP_CHAR

theorem length_le_countRead (names : List Str) : names.length ≤ countRead names := by
  induction names with
  | nil => exact Nat.zero_le _
  | cons name names ih =>
      rw [countRead, separated, List.flatMap_cons, List.count_append, List.count_append,
        List.count_singleton_self, ← separated, ← countRead, List.length_cons]
      omega

theorem countRead_eq_length {names : List Str}
    (hsep : ∀ name ∈ names, MSG_LOCATIONS_SEP_CHAR ∉ name) : countRead names = names.length := by
  rw [countRead, ← Text.length_terminated, separated, Text.terminated_flatMap hsep]

/-- A page can always be read, and has room for a hundred separators. -/
theorem getLocations_countRead {data : MsgLocationsResponseData} {names : List Str}
    (h : Lists data names) :
    ∃ locations, data.getLocations = .ok locations ∧ locations.length = countRead names ∧
      countRead names ≤ MSG_LOCATIONS_MAX_CHARS := by
  refine ⟨Text.terminated MSG_LOCATIONS_SEP_CHAR (separated names), ?_,
    Text.length_terminated _ _, ?_⟩
  · rw [getLocations, if_pos (h.count ▸ h.le), h.chars]
  · calc
      countRead names ≤ (separated names).length := List.count_le_length
      _ ≤ data.charCount.toNat := by
        rw [← h.chars]
        exact List.length_take_le _ _
      _ ≤ MSG_LOCATIONS_MAX_CHARS := h.count ▸ h.le

/-! ## Calls one after the other -/

/-- `AddLocation` for one name after the other: what the calls return, and the data
they leave. -/
def addEach (data : MsgLocationsResponseData) :
    List Str → Except Fault (List Bool × MsgLocationsResponseData)
  | [] => .ok ([], data)
  | name :: names => do
      let (added, data) ← data.addLocation name
      let (results, data) ← data.addEach names
      return (added :: results, data)

/-- The names whose call returned true, in the order of the calls. -/
def accepted (names : List Str) (results : List Bool) : List Str :=
  ((names.zip results).filter Prod.snd).map Prod.fst

/-- Calls on a response that holds names add the accepted ones behind them, and mark
it if one was refused. -/
theorem addEach_spec {data : MsgLocationsResponseData} {names : List Str} (h : Lists data names)
    (offered : List Str) (hoffered : ∀ name ∈ offered, name.length < 2 ^ 63) :
    ∃ results data', data.addEach offered = .ok (results, data') ∧
      Lists data' (names ++ accepted offered results) ∧
      (data'.isPaginated ≠ 0 ↔ data.isPaginated ≠ 0 ∨ false ∈ results) := by
  induction offered generalizing data names with
  | nil =>
      refine ⟨[], data, rfl, ?_, ?_⟩
      · rwa [accepted, List.zip_nil_left, List.filter_nil, List.map_nil, List.append_nil]
      · simp only [List.not_mem_nil, or_false]
  | cons name offered ih =>
      have hname := hoffered name List.mem_cons_self
      have hrest : ∀ other ∈ offered, other.length < 2 ^ 63 :=
        fun other hother => hoffered other (List.mem_cons_of_mem _ hother)
      by_cases hfits : nameSize name ≤ MSG_LOCATIONS_MAX_CHARS - GreedyPages.total nameSize names
      · obtain ⟨data₁, hadd, h₁, hpaginated₁⟩ := addLocation_of_fits h hname hfits
        obtain ⟨results, data', heach, h', hpaginated⟩ := ih h₁ hrest
        refine ⟨true :: results, data', ?_, ?_, ?_⟩
        · rw [addEach, hadd, Fault.ok_bind]
          simp only [heach, Fault.ok_bind, Fault.pure_eq_ok]
        · simpa only [accepted, List.zip_cons_cons, List.filter_cons_of_pos, List.map_cons,
            List.append_assoc, List.singleton_append] using h'
        · rw [hpaginated, hpaginated₁, List.mem_cons]
          simp only [Bool.false_eq_true, false_or]
      · have hadd := addLocation_of_not_fits h hname hfits
        obtain ⟨results, data', heach, h', hpaginated⟩ :=
          @ih { data with isPaginated := 1 } _ ⟨h.count, h.le, h.chars⟩ hrest
        refine ⟨false :: results, data', ?_, ?_, ?_⟩
        · rw [addEach, hadd, Fault.ok_bind]
          simp only [heach, Fault.ok_bind, Fault.pure_eq_ok]
        · simpa only [accepted, List.zip_cons_cons, List.filter_cons, Bool.false_eq_true,
            if_false] using h'
        · rw [hpaginated]
          simp only [ne_eq, List.mem_cons, true_or, or_true, iff_true]
          exact Or.inl (by decide)

end MsgLocationsResponseData

/-- A name without the separator.  No string is longer than half the address space. -/
structure PlainName where
  chars : Str
  size_lt : chars.length < 2 ^ 63
  no_sep : MSG_LOCATIONS_SEP_CHAR ∉ chars

/-- Whatever names are offered to a new response: no call writes outside the array,
the count stays within it, the mark says whether a name was refused, and exactly
the accepted names are read back, here and from a response that was deserialized
from the bytes of this one. -/
theorem addLocation_calls (timestamp now : UInt64) (padding : UInt32) (names : List PlainName) :
    ∃ results data, MsgLocationsResponseData.create.addEach (names.map PlainName.chars) =
        .ok (results, data) ∧
      data.charCount.toNat ≤ MSG_LOCATIONS_MAX_CHARS ∧
      (data.isPaginated ≠ 0 ↔ false ∈ results) ∧
      data.getLocations =
        .ok (MsgLocationsResponseData.accepted (names.map PlainName.chars) results) ∧
      ∃ bytes n received data',
        (FactoryMsg.mk timestamp padding (.locationsResponse data)).toMsg.serialize = .ok bytes ∧
        (FactoryMsg.new now .locationsResponse).toMsg.deserialize bytes = .ok (n, received) ∧
        received.getDerivedType .locationsResponse = some data' ∧
        data'.getLocations =
          .ok (MsgLocationsResponseData.accepted (names.map PlainName.chars) results) := by
  have hsize : ∀ name ∈ names.map PlainName.chars, name.length < 2 ^ 63 := by
    intro name hname
    obtain ⟨plain, -, rfl⟩ := List.mem_map.mp hname
    exact plain.size_lt
  obtain ⟨results, data, heach, hlists, hpaginated⟩ :=
    MsgLocationsResponseData.addEach_spec MsgLocationsResponseData.lists_create _ hsize
  have hsep : ∀ name ∈ MsgLocationsResponseData.accepted (names.map PlainName.chars) results,
      MSG_LOCATIONS_SEP_CHAR ∉ name := by
    intro name hname
    obtain ⟨pair, hpair, rfl⟩ := List.mem_map.mp hname
    obtain ⟨plain, -, hplain⟩ := List.mem_map.mp (List.of_mem_zip (List.mem_of_mem_filter hpair)).1
    exact hplain ▸ plain.no_sep
  have hread := MsgLocationsResponseData.getLocations_of_lists hlists hsep
  rw [List.nil_append] at hlists hread
  refine ⟨results, data, heach, hlists.count ▸ hlists.le, ?_, hread, ?_⟩
  · rw [hpaginated]
    exact or_iff_right (fun h => h rfl)
  · obtain ⟨n, hdeserialize⟩ := @Msg.deserialize_bytes (FactoryMsg.new now .locationsResponse).toMsg
      (FactoryMsg.mk timestamp padding (.locationsResponse data)) rfl []
    rw [List.append_nil] at hdeserialize
    exact ⟨_, n, _, data, FactoryMsg.serialize_toMsg _, hdeserialize, rfl, hread⟩

end RoutePlanner.Messages
