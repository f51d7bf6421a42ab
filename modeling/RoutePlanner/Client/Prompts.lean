/-
# The prompts of the client

`GetRouteRequest` asks twice for a number, each time until it is below the size of the
cache.  The loops look at the number only, never at the stream.  So text that is no
number is read as 0, which names the first location, and after that the stream stores
nothing more: the prompt for the end then repeats forever, as does every prompt of a
later menu.  As long as only numbers are typed, the prompts are those of the handler
that is given the numbers.
-/

import RoutePlanner.Client.ClientMsgHandler
import RoutePlanner.Std.InputStream

namespace RoutePlanner.Client

open RoutePlanner.Std
open RoutePlanner.Messages

/-- How far a dialogue with the user has come. -/
inductive Prompt (α : Type)
  /-- It has not ended after so many reads. -/
  | running
  /-- A read waits for more to be typed. -/
  | waiting
  | answered (answer : α) (cin : InputStream)
  deriving DecidableEq

/-- One dialogue and then another one. -/
def Prompt.andThen {α β : Type} : Prompt α → (α → InputStream → Prompt β) → Prompt β
  | .running, _ => .running
  | .waiting, _ => .waiting
  | .answered answer cin, next => next answer cin

namespace ClientMsgHandler

/-- One of the two loops of `GetRouteRequest`, for so many reads at most. -/
def promptLocation (size : Nat) : Nat → Nat → InputStream → Prompt Nat
  | fuel, location, cin =>
      if size ≤ location then
        match fuel with
        | 0 => .running
        | fuel + 1 =>
            match cin.enter with
            | none => .waiting
            | some (stored, cin) =>
                promptLocation size fuel ((stored.map UInt64.toNat).getD location) cin
      else .answered location cin

/-- The route request from one location to another. -/
def routeRequest (now : UInt64) (startLocation endLocation : UInt64) : FactoryMsg :=
  { FactoryMsg.new now .routeRequest with body := .routeRequest ⟨startLocation, endLocation⟩ }

/-- `GetRouteRequest`, with so many reads at most for each loop. -/
def getRouteRequestFrom (now : UInt64) (fuel : Nat) (client : ClientMsgHandler)
    (cin : InputStream) : Prompt FactoryMsg :=
  let size := client.locationsCache.length
  (promptLocation size fuel size cin).andThen fun startLocation cin =>
    (promptLocation size fuel size cin).andThen fun endLocation cin =>
      .answered (routeRequest now (UInt64.ofNat startLocation) (UInt64.ofNat endLocation)) cin

/-- The menus of a client that is asked for one route after the other. -/
def showMenus (now : UInt64) (fuel : Nat) : List ClientMsgHandler → InputStream →
    Prompt (List FactoryMsg)
  | [], cin => .answered [] cin
  | client :: menus, cin =>
      (getRouteRequestFrom now fuel client cin).andThen fun request cin =>
        (showMenus now fuel menus cin).andThen fun requests cin =>
          .answered (request :: requests) cin

/-! ## How a dialogue ends -/

/-- With enough reads it gets there, and before that it is running. -/
def Reaches {α : Type} (run : Nat → Prompt α) (result : Prompt α) : Prop :=
  ∃ bound, ∀ fuel, run fuel = if fuel < bound then .running else result

/-- A dialogue ends as one that is given the readings of the stream, and takes its
answer from them.  Where they do not suffice it waits, or goes on forever if the stream
has failed. -/
inductive Ends {α : Type} (run : Nat → Prompt α) (cin : InputStream)
    (take : List UInt64 → Option (α × List UInt64)) : Prop
  | answers {answer : α} {cin' : InputStream}
      (htake : take cin.readings.1 = some (answer, cin'.readings.1))
      (hfails : cin'.readings.2 = cin.readings.2) (hends : Reaches run (.answered answer cin'))
  | waits (htake : take cin.readings.1 = none) (hfails : cin.readings.2 = false)
      (hends : Reaches run .waiting)
  | repeats (htake : take cin.readings.1 = none) (hfails : cin.readings.2 = true)
      (hends : ∀ fuel, run fuel = .running)

section AndThen

variable {α β : Type} {run : Nat → Prompt α} {next : Nat → α → InputStream → Prompt β}

theorem reaches_andThen {answer : α} {cin : InputStream} {result : Prompt β}
    (hrun : Reaches run (.answered answer cin))
    (hnext : Reaches (fun fuel => next fuel answer cin) result) :
    Reaches (fun fuel => (run fuel).andThen (next fuel)) result := by
  obtain ⟨bound, hrun⟩ := hrun
  obtain ⟨bound', hnext⟩ := hnext
  refine ⟨max bound bound', fun fuel => ?_⟩
  by_cases hfuel : fuel < bound
  · simp only [hrun, if_pos hfuel, if_pos (hfuel.trans_le (le_max_left _ _)), Prompt.andThen]
  · have hmax : fuel < max bound bound' ↔ fuel < bound' := by
      rw [lt_max_iff]
      exact or_iff_right hfuel
    simp only [hrun, if_neg hfuel, hmax]
    exact hnext fuel

/-- One after the other they end so, too. -/
theorem Ends.andThen {cin : InputStream} {take : List UInt64 → Option (α × List UInt64)}
    (h : Ends run cin take) {takeNext : α → List UInt64 → Option (β × List UInt64)}
    (hnext : ∀ answer cin', Ends (fun fuel => next fuel answer cin') cin' (takeNext answer)) :
    Ends (fun fuel => (run fuel).andThen (next fuel)) cin
      fun typed => (take typed).bind fun taken => takeNext taken.1 taken.2 := by
  cases h with
  | @answers answer cin' htake hfails hends =>
      have htaken : ((take cin.readings.1).bind fun taken => takeNext taken.1 taken.2) =
          takeNext answer cin'.readings.1 := by
        rw [htake]
        rfl
      cases hnext answer cin' with
      | answers htake' hfails' hends' =>
          exact .answers (htaken.trans htake') (hfails'.trans hfails) (reaches_andThen hends hends')
      | waits htake' hfails' hends' =>
          exact .waits (htaken.trans htake') (hfails.symm.trans hfails')
            (reaches_andThen hends hends')
      | repeats htake' hfails' hends' =>
          refine .repeats (htaken.trans htake') (hfails.symm.trans hfails') fun fuel => ?_
          obtain ⟨bound, hends⟩ := hends
          rw [hends]
          split
          · rfl
          · exact hends' fuel
  | waits htake hfails hends =>
      obtain ⟨bound, hends⟩ := hends
      refine .waits (by rw [htake]; rfl) hfails ⟨bound, fun fuel => ?_⟩
      dsimp only
      rw [hends]
      split <;> rfl
  | repeats htake hfails hends =>
      refine .repeats (by rw [htake]; rfl) hfails fun fuel => ?_
      rw [hends]
      rfl

/-- Nothing more is asked. -/
theorem Ends.pure (answer : α) (cin : InputStream) :
    Ends (fun _ => .answered answer cin) cin fun typed => some (answer, typed) :=
  .answers rfl rfl ⟨0, fun _ => rfl⟩

theorem reaches_unique {result result' : Prompt α} (h : Reaches run result)
    (h' : Reaches run result') : result = result' := by
  obtain ⟨bound, h⟩ := h
  obtain ⟨bound', h'⟩ := h'
  have hresult := h (max bound bound')
  have hresult' := h' (max bound bound')
  rw [if_neg (Nat.not_lt_of_le (le_max_left _ _))] at hresult
  rw [if_neg (Nat.not_lt_of_le (le_max_right _ _))] at hresult'
  exact hresult.symm.trans hresult'

/-- A dialogue comes to an answer exactly if the readings give it. -/
theorem Ends.answered_iff {cin : InputStream} {take : List UInt64 → Option (α × List UInt64)}
    (h : Ends run cin take) (answer : α) :
    (∃ cin', Reaches run (.answered answer cin')) ↔
      ∃ left, take cin.readings.1 = some (answer, left) := by
  cases h with
  | @answers answer' cin' htake hfails hends =>
      apply Iff.intro
      · rintro ⟨cin'', hreaches⟩
        obtain ⟨rfl, rfl⟩ := Prompt.answered.inj (reaches_unique hends hreaches)
        exact ⟨_, htake⟩
      · rintro ⟨left, hleft⟩
        obtain ⟨rfl, -⟩ := Prod.mk.inj (Option.some.inj (htake.symm.trans hleft))
        exact ⟨cin', hends⟩
  | waits htake hfails hends =>
      apply Iff.intro
      · rintro ⟨cin'', hreaches⟩
        cases reaches_unique hends hreaches
      · rintro ⟨left, hleft⟩
        cases htake.symm.trans hleft
  | repeats htake hfails hends =>
      apply Iff.intro
      · rintro ⟨cin'', bound, hreaches⟩
        have hresult := hreaches bound
        rw [hends, if_neg (Nat.lt_irrefl bound)] at hresult
        cases hresult
      · rintro ⟨left, hleft⟩
        cases htake.symm.trans hleft

/-- It goes on forever exactly if they do not and the stream fails. -/
theorem Ends.running_iff {cin : InputStream} {take : List UInt64 → Option (α × List UInt64)}
    (h : Ends run cin take) :
    (∀ fuel, run fuel = .running) ↔ take cin.readings.1 = none ∧ cin.readings.2 = true := by
  have hnever : ∀ {result : Prompt α}, result ≠ .running → Reaches run result →
      ¬ ∀ fuel, run fuel = .running := by
    rintro result hresult ⟨bound, hreaches⟩ hrunning
    have hend := hreaches bound
    rw [hrunning, if_neg (Nat.lt_irrefl bound)] at hend
    exact hresult hend.symm
  cases h with
  | answers htake hfails hends =>
      refine iff_of_false (hnever (by nofun) hends) fun hnone => ?_
      cases htake.symm.trans hnone.1
  | waits htake hfails hends =>
      refine iff_of_false (hnever (by nofun) hends) fun hnone => ?_
      cases hfails.symm.trans hnone.2
  | repeats htake hfails hends => exact iff_of_true hends ⟨htake, hfails⟩

end AndThen

/-! ## One prompt -/

section Prompt

variable {size location : Nat} {cin cin' : InputStream}

theorem promptLocation_of_lt (h : location < size) (fuel : Nat) (cin : InputStream) :
    promptLocation size fuel location cin = .answered location cin := by
  unfold promptLocation
  rw [if_neg (Nat.not_le_of_lt h)]

theorem promptLocation_zero (h : size ≤ location) (cin : InputStream) :
    promptLocation size 0 location cin = .running := by
  unfold promptLocation
  rw [if_pos h]

theorem promptLocation_of_waits (h : size ≤ location) (henter : cin.enter = none) (fuel : Nat) :
    promptLocation size (fuel + 1) location cin = .waiting := by
  rw [promptLocation, if_pos h]
  simp only [henter]

theorem promptLocation_of_enter (h : size ≤ location) {stored : Option UInt64}
    (henter : cin.enter = some (stored, cin')) (fuel : Nat) :
    promptLocation size (fuel + 1) location cin =
      promptLocation size fuel ((stored.map UInt64.toNat).getD location) cin' := by
  rw [promptLocation, if_pos h]
  simp only [henter]

/-- A stream that is not good leaves the number as it is, and the prompt goes on. -/
theorem promptLocation_of_not_good (h : size ≤ location) (hgood : cin.good = false)
    (fuel : Nat) : promptLocation size fuel location cin = .running := by
  induction fuel with
  | zero => exact promptLocation_zero h cin
  | succ fuel ih =>
      rw [promptLocation_of_enter h (InputStream.enter_of_not_good hgood)]
      exact ih

/-- A read that returns takes one step. -/
theorem reaches_of_enter (h : size ≤ location) {stored : Option UInt64}
    (henter : cin.enter = some (stored, cin')) {result : Prompt Nat}
    (hends : Reaches (fun fuel =>
      promptLocation size fuel ((stored.map UInt64.toNat).getD location) cin') result) :
    Reaches (fun fuel => promptLocation size fuel location cin) result := by
  obtain ⟨bound, hends⟩ := hends
  refine ⟨bound + 1, fun fuel => ?_⟩
  cases fuel with
  | zero => exact (promptLocation_zero h cin).trans (if_pos (Nat.succ_pos bound)).symm
  | succ fuel =>
      simp only [promptLocation_of_enter h henter, hends, Nat.add_lt_add_iff_right]

theorem repeats_of_enter (h : size ≤ location) {stored : Option UInt64}
    (henter : cin.enter = some (stored, cin'))
    (hends : ∀ fuel,
      promptLocation size fuel ((stored.map UInt64.toNat).getD location) cin' = .running)
    (fuel : Nat) : promptLocation size fuel location cin = .running := by
  cases fuel with
  | zero => exact promptLocation_zero h cin
  | succ fuel =>
      rw [promptLocation_of_enter h henter]
      exact hends fuel

/-- The first index of the menu among the numbers typed. -/
def takeLocation (size : Nat) (typed : List UInt64) : Option (Nat × List UInt64) :=
  (askLocation size typed).map fun taken => (taken.1.toNat, taken.2)

theorem takeLocation_of_le {number : UInt64} (h : size ≤ number.toNat) (typed : List UInt64) :
    takeLocation size (number :: typed) = takeLocation size typed := by
  rw [takeLocation, askLocation, if_pos h]
  rfl

theorem takeLocation_of_lt {number : UInt64} (h : ¬ size ≤ number.toNat) (typed : List UInt64) :
    takeLocation size (number :: typed) = some (number.toNat, typed) := by
  rw [takeLocation, askLocation, if_neg h]
  rfl

/-- An index of the menu ends the prompt at once. -/
theorem reaches_of_index (h : size ≤ location) {number : UInt64}
    (henter : cin.enter = some (some number, cin')) (hnumber : ¬ size ≤ number.toNat) :
    Reaches (fun fuel => promptLocation size fuel location cin)
      (.answered number.toNat cin') :=
  reaches_of_enter h henter
    ⟨0, fun fuel => promptLocation_of_lt (Nat.lt_of_not_le hnumber) fuel cin'⟩

/-- Every prompt ends so, whatever the stream. -/
theorem promptLocation_ends (h : size ≤ location) (cin : InputStream) :
    Ends (fun fuel => promptLocation size fuel location cin) cin (takeLocation size) := by
  induction cin using InputStream.readingsInduction generalizing location with
  | waits cin henter =>
      have hreadings := InputStream.readings_of_waits henter
      refine .waits (by rw [hreadings]; rfl) (by rw [hreadings]) ⟨1, fun fuel => ?_⟩
      cases fuel with
      | zero => exact promptLocation_zero h cin
      | succ fuel => exact promptLocation_of_waits h henter fuel
  | failed cin stored cin' henter hgood =>
      have hreadings := InputStream.readings_of_failed henter hgood
      have hreadings' := InputStream.readings_of_not_good hgood
      cases stored with
      | none =>
          refine .repeats (by rw [hreadings]; rfl) (by rw [hreadings])
            (repeats_of_enter h henter ?_)
          exact promptLocation_of_not_good h hgood
      | some number =>
          by_cases hnumber : size ≤ number.toNat
          · refine .repeats ?_ (by rw [hreadings]) (repeats_of_enter h henter ?_)
            · rw [hreadings]
              exact takeLocation_of_le hnumber []
            · exact promptLocation_of_not_good hnumber hgood
          · refine .answers ?_ (by rw [hreadings, hreadings']) (reaches_of_index h henter hnumber)
            rw [hreadings, hreadings']
            exact takeLocation_of_lt hnumber []
  | number cin number cin' henter hgood ih =>
      have hreadings := InputStream.readings_of_number henter hgood
      have hfails : cin'.readings.2 = cin.readings.2 := by rw [hreadings]
      by_cases hnumber : size ≤ number.toNat
      · have htake : takeLocation size cin.readings.1 = takeLocation size cin'.readings.1 := by
          rw [hreadings]
          exact takeLocation_of_le hnumber _
        cases @ih number.toNat hnumber with
        | answers htake' hfails' hends =>
            exact .answers (htake.trans htake') (hfails'.trans hfails)
              (reaches_of_enter h henter hends)
        | waits htake' hfails' hends =>
            exact .waits (htake.trans htake') (hfails.symm.trans hfails')
              (reaches_of_enter h henter hends)
        | repeats htake' hfails' hends =>
            exact .repeats (htake.trans htake') (hfails.symm.trans hfails')
              (repeats_of_enter h henter hends)
      · refine .answers ?_ hfails (reaches_of_index h henter hnumber)
        rw [hreadings]
        exact takeLocation_of_lt hnumber _

end Prompt

theorem askLocation_eq_some {size : Nat} {typed rest : List UInt64} {index : UInt64}
    (h : askLocation size typed = some (index, rest)) :
    index.toNat < size ∧ rest.length < typed.length := by
  induction typed with
  | nil => cases h
  | cons number typed ih =>
      rw [askLocation] at h
      split at h
      · obtain ⟨hindex, hlt⟩ := ih h
        exact ⟨hindex, hlt.trans (Nat.lt_succ_self _)⟩
      · rename_i hnumber
        obtain ⟨rfl, rfl⟩ := Prod.mk.inj (Option.some.inj h)
        exact ⟨Nat.lt_of_not_le hnumber, Nat.lt_succ_self _⟩

/-! ## Menus -/

/-- What a menu takes of the numbers typed. -/
def takeMenu (now : UInt64) (size : Nat) (typed : List UInt64) :
    Option (FactoryMsg × List UInt64) := do
  let (startLocation, typed) ← askLocation size typed
  let (endLocation, typed) ← askLocation size typed
  return (routeRequest now startLocation endLocation, typed)

/-- What menus take one after the other. -/
def takeMenus (now : UInt64) : List ClientMsgHandler → List UInt64 →
    Option (List FactoryMsg × List UInt64)
  | [], typed => some ([], typed)
  | client :: menus, typed => do
      let (request, typed) ← takeMenu now client.locationsCache.length typed
      let (requests, typed) ← takeMenus now menus typed
      return (request :: requests, typed)

/-- The handler that is given the numbers asks for what the menu takes. -/
theorem getRouteRequest_eq_takeMenu (now : UInt64) (typed : List Str → List UInt64)
    (client : ClientMsgHandler) :
    client.getRouteRequest now typed =
      match takeMenu now client.locationsCache.length (typed client.locationsCache) with
      | none => .asking
      | some (request, _) => .returned (some request) := by
  rw [getRouteRequest, takeMenu]
  cases askLocation client.locationsCache.length (typed client.locationsCache) with
  | none => rfl
  | some first =>
      obtain ⟨startLocation, rest⟩ := first
      dsimp only [Option.bind_eq_bind, Option.bind_some]
      cases askLocation client.locationsCache.length rest with
      | none => rfl
      | some second => rfl

theorem takeMenu_eq (now : UInt64) (size : Nat) :
    takeMenu now size = fun typed => (takeLocation size typed).bind fun start =>
      (takeLocation size start.2).bind fun stop =>
        some (routeRequest now (UInt64.ofNat start.1) (UInt64.ofNat stop.1), stop.2) := by
  funext typed
  rw [takeMenu, takeLocation]
  cases askLocation size typed with
  | none => rfl
  | some first =>
      obtain ⟨startLocation, rest⟩ := first
      show ((askLocation size rest).bind _) = ((askLocation size rest).map _).bind _
      cases askLocation size rest with
      | none => rfl
      | some second =>
          simp

/-- One menu over any stream. -/
theorem getRouteRequestFrom_ends (now : UInt64) (client : ClientMsgHandler) (cin : InputStream) :
    Ends (fun fuel => client.getRouteRequestFrom now fuel cin) cin
      (takeMenu now client.locationsCache.length) := by
  rw [takeMenu_eq]
  refine @Ends.andThen _ _ _ _ _ _ (promptLocation_ends (Nat.le_refl _) cin)
    (fun startLocation typed =>
      (takeLocation client.locationsCache.length typed).bind fun stop =>
        some (routeRequest now (UInt64.ofNat startLocation) (UInt64.ofNat stop.1), stop.2))
    fun startLocation cin => ?_
  exact @Ends.andThen _ _ _ _ _ _ (promptLocation_ends (Nat.le_refl _) cin)
    (fun endLocation typed =>
      some (routeRequest now (UInt64.ofNat startLocation) (UInt64.ofNat endLocation), typed))
    fun endLocation cin => Ends.pure _ cin

/-- What a handler asks for are two indices of its menu. -/
theorem indices_of_getRouteRequest {now : UInt64} {typed : List Str → List UInt64}
    {client : ClientMsgHandler} {request : FactoryMsg}
    (h : client.getRouteRequest now typed = .returned (some request)) :
    ∃ data : MsgRouteRequestData, request.body = .routeRequest data ∧
      data.startLocation.toNat < client.locationsCache.length ∧
      data.endLocation.toNat < client.locationsCache.length := by
  rw [getRouteRequest] at h
  split at h
  · cases h
  · rename_i startLocation rest hstart
    split at h
    · cases h
    · rename_i endLocation rest' hend
      obtain rfl := Option.some.inj (Reply.returned.inj h)
      exact ⟨_, rfl, (askLocation_eq_some hstart).1, (askLocation_eq_some hend).1⟩

/-- So `GetRouteRequest` comes to the request that the handler makes which is given the
numbers. -/
theorem getRouteRequestFrom_iff (now : UInt64) (client : ClientMsgHandler) (cin : InputStream)
    (request : FactoryMsg) :
    (∃ cin', Reaches (fun fuel => client.getRouteRequestFrom now fuel cin)
        (.answered request cin')) ↔
      client.getRouteRequest now (fun _ => cin.readings.1) = .returned (some request) := by
  rw [(getRouteRequestFrom_ends now client cin).answered_iff, getRouteRequest_eq_takeMenu]
  cases takeMenu now client.locationsCache.length cin.readings.1 with
  | none => simp
  | some taken => simp [Prod.ext_iff]

/-- For any menus and any text typed, whole or in part: with enough reads the menus come
to the requests that the readings give them, or they wait for more text; where the
stream has failed before, the prompt is repeated forever. -/
theorem showMenus_ends (now : UInt64) (menus : List ClientMsgHandler) (cin : InputStream) :
    Ends (fun fuel => showMenus now fuel menus cin) cin (takeMenus now menus) := by
  induction menus generalizing cin with
  | nil => exact Ends.pure [] cin
  | cons client menus ih =>
      refine @Ends.andThen _ _ _ _ _ _ (getRouteRequestFrom_ends now client cin)
        (fun request typed =>
          (takeMenus now menus typed).bind fun taken => some (request :: taken.1, taken.2))
        fun request cin => ?_
      exact @Ends.andThen _ _ _ _ _ _ (ih cin)
        (fun requests typed => some (request :: requests, typed))
        fun requests cin => Ends.pure _ cin

/-- A menu takes two numbers at least. -/
theorem length_of_takeMenus {now : UInt64} {menus : List ClientMsgHandler}
    {typed rest : List UInt64} {requests : List FactoryMsg}
    (h : takeMenus now menus typed = some (requests, rest)) :
    rest.length + 2 * menus.length ≤ typed.length := by
  induction menus generalizing typed requests with
  | nil =>
      obtain ⟨-, rfl⟩ := Prod.mk.inj (Option.some.inj h)
      exact Nat.le_refl _
  | cons client menus ih =>
      obtain ⟨⟨request, typed₁⟩, hmenu, hmenus⟩ := Option.bind_eq_some_iff.mp h
      obtain ⟨⟨requests₁, typed₂⟩, htail, heq⟩ := Option.bind_eq_some_iff.mp hmenus
      obtain ⟨-, rfl⟩ := Prod.mk.inj (Option.some.inj heq)
      obtain ⟨⟨startLocation, rest₁⟩, hstart, hmenu⟩ := Option.bind_eq_some_iff.mp hmenu
      obtain ⟨⟨endLocation, rest₂⟩, hend, heq⟩ := Option.bind_eq_some_iff.mp hmenu
      obtain ⟨-, rfl⟩ := Prod.mk.inj (Option.some.inj heq)
      have hlast := ih htail
      have hfirst := (askLocation_eq_some hstart).2
      have hsecond := (askLocation_eq_some hend).2
      rw [List.length_cons]
      omega

theorem takeMenus_eq_none {now : UInt64} {menus : List ClientMsgHandler} {typed : List UInt64}
    (hlength : typed.length < 2 * menus.length) : takeMenus now menus typed = none := by
  cases htake : takeMenus now menus typed with
  | none => rfl
  | some taken =>
      have hle := length_of_takeMenus htake
      omega

/-- Once a word is typed instead of a number, the prompt that meets it takes it as 0, the
first location, and menus for which the numbers typed before and this 0 do not suffice
repeat a prompt forever, whatever is typed afterwards; no others do. -/
theorem running_after_word {texts : List Str} {numbers : List UInt64}
    (h : List.Forall₂ InputStream.IsNumeral texts numbers) {blanks : Str}
    (hblanks : ∀ b ∈ blanks, isSpace b = true) {c : Byte} (hc : InputStream.StartsWord c)
    (rest : Str) (closed : Bool) (now : UInt64) (menus : List ClientMsgHandler) :
    (∀ requests, (∃ cin', Reaches (fun fuel => showMenus now fuel menus
        ⟨texts.flatten ++ (blanks ++ c :: rest), closed, true⟩) (.answered requests cin')) ↔
      ∃ left, takeMenus now menus (numbers ++ [0]) = some (requests, left)) ∧
    ((∀ fuel, showMenus now fuel menus
        ⟨texts.flatten ++ (blanks ++ c :: rest), closed, true⟩ = .running) ↔
      takeMenus now menus (numbers ++ [0]) = none) := by
  have hreadings := InputStream.readings_of_word h hblanks hc rest closed
  have hends := showMenus_ends now menus ⟨texts.flatten ++ (blanks ++ c :: rest), closed, true⟩
  refine ⟨fun requests => ?_, ?_⟩
  · have hiff := hends.answered_iff requests
    rwa [hreadings] at hiff
  · have hiff := hends.running_iff
    rw [hreadings] at hiff
    exact hiff.trans (and_iff_left rfl)

def twoCitiesMenu : ClientMsgHandler := ⟨[str "London", str "Bath"]⟩

/-- One index and then a word are typed at the first of two menus. -/
theorem running_after_word_quit :
    ((∀ fuel, showMenus 0 fuel [twoCitiesMenu, twoCitiesMenu] ⟨str "1\nquit\n", false, true⟩ =
        .running) ↔
      takeMenus 0 [twoCitiesMenu, twoCitiesMenu] ([1] ++ [0]) = none) ∧
    takeMenus 0 [twoCitiesMenu, twoCitiesMenu] ([1] ++ [0]) = none :=
  ⟨(@running_after_word [str "1\n"] [1]
    (.cons ⟨[], str "1", newline, by decide, List.all_eq_true.mp (by decide), by decide,
      List.all_eq_true.mp (by decide), by decide, by decide⟩ .nil)
    [] (List.all_eq_true.mp (by decide)) 113 (by decide) (str "uit\n") false 0
    [twoCitiesMenu, twoCitiesMenu]).2, takeMenus_eq_none (by decide)⟩

end ClientMsgHandler

end RoutePlanner.Client
