/-
# The list the client ends up with

The client pages through the server's list and then shows the user a menu.  The
menu is the list exactly when the pages keep its order; a page that passes over a
name and takes a later, shorter one makes the client skip a name and receive
another twice.
-/

import RoutePlanner.System.Phases
import RoutePlanner.Server.FilePlanner

namespace RoutePlanner.System

open RoutePlanner.Std
open RoutePlanner.Math
open RoutePlanner.Math.GreedyPages (Pages InOrder)
open RoutePlanner.Messages
open RoutePlanner.Comms
open RoutePlanner.Server
open RoutePlanner.Client

/-- The last name has room on a page. -/
def LastFits (names : List Str) : Prop := ∀ name ∈ names.getLast?, name.length ≤ 99

theorem lastFits_of_short {entries : List Route.Entry}
    (hshort : ∀ entry ∈ entries, entry.1.length ≤ 99) : LastFits (entries.map Prod.fst) := by
  intro _ hlast
  obtain ⟨entry, hentry, rfl⟩ := List.mem_map.mp (List.mem_of_getLast? hlast)
  exact hshort entry hentry

namespace Phase

variable (names : List Str)

/-- The pages the client has received so far go on to the menus that paging from
the first name leads to. -/
def Paged : Phase → Prop
  | asked cache | paged cache => ∀ final, Pages nameSize MSG_LOCATIONS_MAX_CHARS names cache final →
      Pages nameSize MSG_LOCATIONS_MAX_CHARS names [] final
  | routeAsked cache => Pages nameSize MSG_LOCATIONS_MAX_CHARS names [] cache
  | _ => True

variable {names}

theorem paged_next {phase : Phase} (h : phase.Paged names) : (phase.next names).Paged names := by
  cases phase with
  | statusSent => exact trivial
  | statusAnswered => exact fun _ => id
  | asked cache => exact h
  | paged cache =>
      rw [next]
      split
      · rename_i hmore
        exact fun final hpages => h final (.next hmore hpages)
      · rename_i hlast
        exact h _ (.last (Bool.eq_false_iff.mpr hlast))
  | routeAsked cache => exact trivial
  | routeAnswered cache => exact fun _ => id

/-- The phase after a number of hops. -/
def after (names : List Str) (n : Nat) : Phase := (next names)^[n] statusSent

theorem after_succ (n : Nat) : after names (n + 1) = next names (after names n) :=
  Function.iterate_succ_apply' ..

theorem foldl_next (hops : List Hop) :
    hops.foldl (fun phase _ => phase.next names) .statusSent = after names hops.length :=
  List.foldl_const ..

theorem paged_after (n : Nat) : (after names n).Paged names := by
  induction n with
  | zero => exact trivial
  | succ n ih =>
      rw [after_succ]
      exact paged_next ih

/-! ### How far it is to a route -/

/-- So many hops at most, and a route is answered. -/
def rank (names : List Str) : Phase → Nat
  | statusSent => 2 * names.length + 3
  | statusAnswered => 2 * names.length + 2
  | asked cache => 2 * (names.length - cache.length) + 1
  | paged cache => 2 * (names.length - cache.length)
  | routeAsked _ => 1
  | routeAnswered _ => 0

theorem rank_le (phase : Phase) : phase.rank names ≤ 2 * names.length + 3 := by
  cases phase <;> simp only [rank] <;> omega

/-- A page from inside the list brings a name, if the last one fits. -/
theorem nextPage_ne_nil (hlast : LastFits names) {cache : List Str}
    (hcache : cache.length < names.length) : (nextPage names cache).1 ≠ [] := by
  have hne : names ≠ [] := by
    rintro rfl
    exact absurd hcache (Nat.not_lt_zero _)
  have hmem : names.getLast hne ∈ names.drop cache.length := by
    rw [← List.getLast_drop (by simpa using hcache)]
    exact List.getLast_mem _
  exact GreedyPages.fill_ne_nil_of_mem hmem
    (Nat.succ_le_succ (hlast _ (List.getLast?_eq_some_getLast hne)))

/-- Every hop but the one that tells the cost brings that one nearer. -/
theorem rank_next_lt (hlast : LastFits names) {phase : Phase} (hpossible : phase.Possible names)
    (hphase : ∀ cache, phase ≠ routeAnswered cache) :
    (phase.next names).rank names < phase.rank names := by
  cases phase with
  | statusSent => exact Nat.lt_succ_self _
  | statusAnswered =>
      show 2 * (names.length - 0) + 1 < 2 * names.length + 2
      omega
  | asked cache => exact Nat.lt_succ_self _
  | paged cache =>
      have hcache : cache.length < names.length := hpossible
      have hpage := List.length_pos_iff.mpr (nextPage_ne_nil hlast hcache)
      rw [next]
      split
      · show 2 * (names.length - (cache ++ (nextPage names cache).1).length) + 1 <
          2 * (names.length - cache.length)
        rw [List.length_append]
        omega
      · show 1 < 2 * (names.length - cache.length)
        omega
  | routeAsked cache => exact Nat.lt_succ_self _
  | routeAnswered cache => exact absurd rfl (hphase cache)

/-- The client has not got to a menu yet. -/
def Paging : Phase → Prop
  | statusSent | statusAnswered | asked _ | paged _ => True
  | routeAsked _ | routeAnswered _ => False

theorem Paging.ne_routeAsked {phase : Phase} (h : phase.Paging) (cache : List Str) :
    phase ≠ routeAsked cache := by
  rintro rfl
  exact h

theorem Paging.ne_routeAnswered {phase : Phase} (h : phase.Paging) (cache : List Str) :
    phase ≠ routeAnswered cache := by
  rintro rfl
  exact h

/-- A hop on it may. -/
theorem paging_next_or {phase : Phase} (h : phase.Paging) :
    (phase.next names).Paging ∨ ∃ cache, phase.next names = routeAsked cache := by
  cases phase with
  | statusSent => exact Or.inl trivial
  | statusAnswered => exact Or.inl trivial
  | asked cache => exact Or.inl trivial
  | paged cache =>
      rw [next]
      split
      · exact Or.inl trivial
      · exact Or.inr ⟨_, rfl⟩
  | routeAsked cache => exact h.elim
  | routeAnswered cache => exact h.elim

/-- It never does if the last name does not fit. -/
theorem paging_next (hlast : ¬ LastFits names) {phase : Phase} (hpossible : phase.Possible names)
    (h : phase.Paging) : (phase.next names).Paging := by
  cases phase with
  | statusSent => exact trivial
  | statusAnswered => exact trivial
  | asked cache => exact trivial
  | paged cache =>
      have hcache : cache.length < names.length := hpossible
      have hmore : (nextPage names cache).2 = true := by
        by_contra hall
        refine hlast fun name hname => ?_
        have hmem : name ∈ names.drop cache.length := by
          refine List.mem_of_getLast? ?_
          rwa [List.getLast?_drop, if_neg (Nat.not_le_of_lt hcache)]
        exact Nat.le_of_succ_le_succ
          (GreedyPages.size_le_of_not_more (Bool.eq_false_iff.mpr hall) name hmem)
      rw [next, if_pos hmore]
      exact trivial
  | routeAsked cache => exact h.elim
  | routeAnswered cache => exact h.elim

end Phase

/-- One read for each message. -/
def Network.whole : Network where
  cut bytes := if h : bytes = [] then [] else [⟨bytes, h⟩]
  join_cut bytes := by
    split
    · rename_i h
      rw [h, Chunk.join_nil]
    · rw [Chunk.join_cons, Chunk.join_nil, List.append_nil]

/-- A user who always takes the first location. -/
def User.first : User where
  typed _ := [0, 0]
  chooses menu hmenu := by
    have hpos := List.length_pos_iff.mpr hmenu
    simp [ClientMsgHandler.below, hpos]

def Hop.plain : Hop := ⟨0, .whole, .first⟩

/-- Whenever the client asks for a route, its cache is the server's list, element
by element. -/
def CacheIsList {π : Type} (ops : PlannerOps π) (planner : π) (names : List Str) : Prop :=
  ∀ first hops hop s call s' cache, Exchange.run ops planner first hops = .ok s →
    s.hop ops hop = .ok (call, s') → call.AsksRoute cache → cache = names

section Menu

variable {π : Type} {locations : LocationNames} {lister : Lister π locations.names} {planner : π}

/-- The caches with which the client asks for a route are the lists that paging
ends with. -/
theorem pages_of_asksRoute (hplanner : lister.Steady planner) {first : Hop} {hops : List Hop}
    {hop : Hop} {s s' : Exchange π} {call : Call} {cache : List Str}
    (hrun : Exchange.run lister.ops planner first hops = .ok s)
    (hhop : s.hop lister.ops hop = .ok (call, s')) (hcall : call.AsksRoute cache) :
    Pages nameSize MSG_LOCATIONS_MAX_CHARS locations.names [] cache := by
  obtain ⟨-, -, hroute⟩ := refines_of_hop (refines_of_run hplanner hrun) hhop
  have hnext := (hroute cache).mp hcall
  rw [Phase.foldl_next, ← Phase.after_succ] at hnext
  have hpaged := @Phase.paged_after locations.names (hops.length + 1)
  rw [hnext] at hpaged
  exact hpaged

/-- If the last name fits, some run comes to such a request, whatever the clock, the
network and the user are like that its hops have in common. -/
theorem exists_asksRoute (hplanner : lister.Steady planner) (hlast : LastFits locations.names)
    (hop : Hop) :
    ∃ hops s phase call s' cache, Exchange.run lister.ops planner hop hops = .ok s ∧
      Follows lister s phase ∧ s.hop lister.ops hop = .ok (call, s') ∧ call.AsksRoute cache := by
  obtain ⟨s₀, hstart, h₀⟩ := start_follows hplanner hop
  obtain ⟨pre, e, post, s, phase, heq, hrun, ⟨hs, hpaging⟩, cache, hnext⟩ :=
    @Machine.run_reaches _ _ _ (Exchange.exec lister.ops)
      (fun s phase => Follows lister s phase ∧ phase.Paging)
      (fun phase => ∃ cache, phase.next locations.names = .routeAsked cache)
      (Phase.rank locations.names)
      (fun s phase hop hs hgoal => by
        obtain ⟨call, s', hhop⟩ := hop_returns_of_ne hs.1 hop hs.2.ne_routeAsked
        exact ⟨s', _, Exchange.exec_of_hop hhop, ⟨(refines_of_hop hs.1 hhop).1,
          (Phase.paging_next_or hs.2).resolve_right hgoal⟩,
          Phase.rank_next_lt hlast hs.1.possible hs.2.ne_routeAnswered⟩)
      _ _ ⟨h₀, trivial⟩ (List.replicate (2 * locations.names.length + 4) hop)
      (by rw [List.length_replicate]; exact Nat.lt_succ_of_le (Phase.rank_le _))
  obtain ⟨call, s', hhop⟩ := hop_returns_of_ne hs hop hpaging.ne_routeAsked
  exact ⟨pre, s, phase, call, s', cache, (hstart pre).trans hrun, hs, hhop,
    ((refines_of_hop hs hhop).2.2 cache).mpr hnext⟩

/-- If it does not, no run ever comes to a menu, and none fails. -/
theorem paging_of_run (hplanner : lister.Steady planner) (hlast : ¬ LastFits locations.names)
    (first : Hop) (hops : List Hop) :
    ∃ s phase, Exchange.run lister.ops planner first hops = .ok s ∧ Follows lister s phase ∧
      phase.Paging := by
  obtain ⟨s₀, hstart, h₀⟩ := start_follows hplanner first
  obtain ⟨s, hrun, phase, h, hpaging⟩ := @Machine.run_invariant _ _ (Exchange.exec lister.ops)
    (fun s => ∃ phase, Follows lister s phase ∧ phase.Paging) (fun _ _ => True)
    (fun s hop hs _ => by
      obtain ⟨phase, hs, hpaging⟩ := hs
      obtain ⟨call, s', hhop⟩ := hop_returns_of_ne hs hop hpaging.ne_routeAsked
      exact ⟨s', Exchange.exec_of_hop hhop, _, (refines_of_hop hs hhop).1,
        Phase.paging_next hlast hs.possible hpaging⟩)
    _ ⟨_, h₀, trivial⟩ hops fun _ _ _ _ _ _ _ => trivial
  exact ⟨s, phase, (hstart hops).trans hrun, h, hpaging⟩

/-- If the last name fits, the menu is the server's list, in every run, exactly when no
page takes a name behind one it passed over. -/
theorem cacheIsList_iff (hplanner : lister.Steady planner) (hlast : LastFits locations.names) :
    CacheIsList lister.ops planner locations.names ↔
      InOrder nameSize MSG_LOCATIONS_MAX_CHARS locations.names := by
  apply Iff.intro
  · intro hcache
    obtain ⟨hops, s, phase, call, s', cache, hrun, -, hhop, hcall⟩ :=
      exists_asksRoute hplanner hlast Hop.plain
    exact (GreedyPages.eq_iff_inOrder (pages_of_asksRoute hplanner hrun hhop hcall)
      List.nil_prefix).mp (hcache _ _ _ _ _ _ _ hrun hhop hcall)
  · intro hinOrder first hops hop s call s' cache hrun hhop hcall
    exact (GreedyPages.eq_iff_inOrder (pages_of_asksRoute hplanner hrun hhop hcall)
      List.nil_prefix).mpr hinOrder

end Menu

section File

variable {locationFile : Route.File} {entries : List Route.Entry}

/-- Over any locations file that loads, with names of at most 99 characters and without
separators, the menu is the server's list, in every run, exactly when no page takes a
name behind one it passed over. -/
theorem cacheIsList_iff_inOrder (h : Loads locationFile entries)
    (hsep : ∀ entry ∈ entries, MSG_LOCATIONS_SEP_CHAR ∉ entry.1)
    (hshort : ∀ entry ∈ entries, entry.1.length ≤ 99) (routeFile : Route.File) :
    CacheIsList (fileOps locationFile routeFile) Route.RoutePlanner.create
        (entries.map Prod.fst) ↔
      InOrder nameSize MSG_LOCATIONS_MAX_CHARS (entries.map Prod.fst) :=
  @cacheIsList_iff _ (.ofFile h hsep) (.ofFile h.parses routeFile) _ (Or.inl .create)
    (lastFits_of_short hshort)

end File

theorem loads_twoCities :
    Loads Route.twoCitiesFile [(str "London", 5), (str "Bath", 6)] where
  parses := by decide +kernel
  ne_nil := by decide
  length_lt := by decide
  size_lt := by decide

/-- Each of these needs a page of its own. -/
def twoPages : List Route.Entry := [(List.replicate 60 97, 1), (List.replicate 60 98, 1)]

def twoPagesFile : Route.File :=
  some (twoPages.flatMap fun entry => entry.1 ++ str ", 1\n")

theorem loads_twoPagesFile : Loads twoPagesFile twoPages where
  parses := by decide +kernel
  ne_nil := by decide
  length_lt := by decide
  size_lt := by decide

theorem cacheIsList_iff_inOrder_twoPages :
    CacheIsList (fileOps twoPagesFile none) Route.RoutePlanner.create (twoPages.map Prod.fst) ↔
      InOrder nameSize MSG_LOCATIONS_MAX_CHARS (twoPages.map Prod.fst) :=
  cacheIsList_iff_inOrder loads_twoPagesFile (by decide) (by decide) none

/-! ## A page that passes over a name -/

/-- Only the first and the last of these fit on the first page. -/
def skipping : List Route.Entry :=
  [(List.replicate 60 97, 1), (List.replicate 60 98, 1), (List.replicate 10 99, 1)]

def skippingFile : Route.File :=
  some (skipping.flatMap fun entry => entry.1 ++ str ", 1\n")

theorem loads_skippingFile : Loads skippingFile skipping where
  parses := by decide +kernel
  ne_nil := by decide
  length_lt := by decide
  size_lt := by decide

/-- The first page holds the first and the third name, the next one the third
again. -/
theorem not_cacheIsList_skipping :
    Loads skippingFile skipping ∧ (∀ entry ∈ skipping, MSG_LOCATIONS_SEP_CHAR ∉ entry.1) ∧
      (∀ entry ∈ skipping, entry.1.length ≤ 99) ∧
      ¬ CacheIsList (fileOps skippingFile none) Route.RoutePlanner.create
        (skipping.map Prod.fst) := by
  refine ⟨loads_skippingFile, by decide, by decide, fun hcache => ?_⟩
  have hinOrder := (@cacheIsList_iff _ (.ofFile loads_skippingFile (by decide))
    (.ofFile loads_skippingFile.parses none) _ (Or.inl .create)
    (lastFits_of_short (by decide))).mp hcache
  have hpages : Pages nameSize MSG_LOCATIONS_MAX_CHARS (skipping.map Prod.fst) [] _ :=
    .next (by decide) (.last (by decide))
  exact absurd ((GreedyPages.eq_iff_inOrder hpages List.nil_prefix).mpr hinOrder) (by decide)

end RoutePlanner.System
