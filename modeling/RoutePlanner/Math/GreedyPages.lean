/-
# Paging with greedy pages

A list is handed over in pages of bounded capacity.  A page is offered every
item that is still to come and takes each one that fits, so it may pass over an
item and take a later, smaller one.  The receiver knows only how many items it
has, and asks for the next page from there.

What the receiver ends up with is the list exactly when no page takes an item
behind one it passed over.
-/

import Mathlib.Data.List.Infix
import Mathlib.Data.List.Basic

namespace RoutePlanner.Math.GreedyPages

universe u

variable {α : Type u} {size : α → Nat} {capacity : Nat}

/-- What a page with some room takes of the items offered, and whether it passed
over any. -/
def fill (size : α → Nat) (room : Nat) : List α → List α × Bool
  | [] => ([], false)
  | a :: items =>
      if size a ≤ room then
        (a :: (fill size (room - size a) items).1, (fill size (room - size a) items).2)
      else ((fill size room items).1, true)

/-- The room that items take. -/
def total (size : α → Nat) : List α → Nat
  | [] => 0
  | a :: items => size a + total size items

@[simp]
theorem total_nil : total size [] = 0 := rfl

@[simp]
theorem total_cons (a : α) (items : List α) :
    total size (a :: items) = size a + total size items := rfl

theorem total_append (items more : List α) :
    total size (items ++ more) = total size items + total size more := by
  induction items with
  | nil => rw [List.nil_append, total_nil, Nat.zero_add]
  | cons a items ih => rw [List.cons_append, total_cons, total_cons, ih, Nat.add_assoc]

/-! ## One page -/

theorem fill_sublist (room : Nat) (items : List α) : (fill size room items).1.Sublist items := by
  induction items generalizing room with
  | nil => exact List.Sublist.refl _
  | cons a items ih =>
      rw [fill]
      split
      · exact (ih _).cons_cons a
      · exact (ih _).cons a

theorem total_fill_le (room : Nat) (items : List α) :
    total size (fill size room items).1 ≤ room := by
  induction items generalizing room with
  | nil => exact Nat.zero_le _
  | cons a items ih =>
      rw [fill]
      split
      · rename_i hfits
        have hrest := ih (room - size a)
        rw [total_cons]
        omega
      · exact ih room

/-- A page that passed over nothing took everything. -/
theorem fill_of_not_more {room : Nat} {items : List α} (h : (fill size room items).2 = false) :
    (fill size room items).1 = items := by
  induction items generalizing room with
  | nil => rfl
  | cons a items ih =>
      rw [fill] at h ⊢
      split at h
      · rename_i hfits
        rw [if_pos hfits]
        exact congrArg _ (ih h)
      · cases h

/-- A page that passed over something did not take everything. -/
theorem length_fill_lt {room : Nat} {items : List α} (h : (fill size room items).2 = true) :
    (fill size room items).1.length < items.length := by
  induction items generalizing room with
  | nil => cases h
  | cons a items ih =>
      rw [fill] at h ⊢
      split at h
      · rename_i hfits
        rw [if_pos hfits]
        exact Nat.succ_lt_succ (ih h)
      · rename_i hfits
        rw [if_neg hfits]
        exact Nat.lt_succ_of_le (fill_sublist room items).length_le

/-- A page takes a first item that fits. -/
theorem fill_ne_nil {room : Nat} {a : α} {items : List α} (h : size a ≤ room) :
    (fill size room (a :: items)).1 ≠ [] := by
  rw [fill, if_pos h]
  exact List.cons_ne_nil _ _

/-- A page takes something if any item fits. -/
theorem fill_ne_nil_of_mem {room : Nat} {a : α} {items : List α} (hmem : a ∈ items)
    (h : size a ≤ room) : (fill size room items).1 ≠ [] := by
  induction items with
  | nil => exact absurd hmem List.not_mem_nil
  | cons b items ih =>
      by_cases hb : size b ≤ room
      · exact fill_ne_nil hb
      · rw [fill, if_neg hb]
        rcases List.mem_cons.mp hmem with rfl | hmem
        · exact absurd h hb
        · exact ih hmem

/-- On a page that passed over nothing every item fits. -/
theorem size_le_of_not_more {room : Nat} {items : List α} (h : (fill size room items).2 = false) :
    ∀ a ∈ items, size a ≤ room := by
  intro a hmem
  have hle : total size (fill size room items).1 ≤ room := total_fill_le room items
  rw [fill_of_not_more h] at hle
  obtain ⟨before, behind, rfl⟩ := List.append_of_mem hmem
  rw [total_append, total_cons] at hle
  omega

/-- Where a beginning of the items fits and nothing behind it does, the page takes
this beginning. -/
theorem fill_append {room : Nat} {taken rest : List α} (htaken : total size taken ≤ room)
    (hrest : ∀ b ∈ rest, room < total size taken + size b) :
    fill size room (taken ++ rest) = (taken, !rest.isEmpty) := by
  induction taken generalizing room with
  | nil =>
      induction rest with
      | nil => rfl
      | cons b rest ih =>
          have hb : ¬ size b ≤ room := by
            have hlt := hrest b List.mem_cons_self
            rw [total_nil] at hlt
            omega
          have htail := ih fun c hc => hrest c (List.mem_cons_of_mem _ hc)
          rw [List.nil_append] at htail ⊢
          rw [fill, if_neg hb, htail]
          rfl
  | cons a taken ih =>
      rw [total_cons] at htaken
      have hfits : size a ≤ room := by omega
      have htail := @ih (room - size a) (by omega) fun b hb => by
        have hlt := hrest b hb
        rw [total_cons] at hlt
        omega
      rw [List.cons_append, fill, if_pos hfits, htail]

/-- A page that takes a beginning of the items takes nothing behind an item it
passed over, because nothing there fits. -/
theorem lt_of_fill_append {room : Nat} {taken rest : List α}
    (h : (fill size room (taken ++ rest)).1 = taken) :
    ∀ b ∈ rest, room < total size taken + size b := by
  induction taken generalizing room with
  | nil =>
      induction rest with
      | nil => exact fun b hb => absurd hb List.not_mem_nil
      | cons c rest ih =>
          rw [List.nil_append, fill] at h
          split at h
          · cases h
          · rename_i hfits
            intro b hb
            rcases List.mem_cons.mp hb with rfl | hb
            · rw [total_nil]
              omega
            · exact ih h b hb
  | cons a taken ih =>
      rw [List.cons_append, fill] at h
      split at h
      · rename_i hfits
        intro b hb
        have hlt := ih (List.cons.inj h).2 b hb
        rw [total_cons]
        omega
      · -- the item passed over is the first one taken, but it does not fit
        rename_i hfits
        have hle : total size (fill size room (taken ++ rest)).1 ≤ room := total_fill_le room _
        rw [h, total_cons] at hle
        omega

/-! ## All pages -/

/-- No page takes an item behind one it passed over. -/
inductive InOrder (size : α → Nat) (capacity : Nat) : List α → Prop
  | last {items : List α} : total size items ≤ capacity → InOrder size capacity items
  | page {taken rest : List α} : total size taken ≤ capacity → rest ≠ [] →
      (∀ b ∈ rest, capacity < total size taken + size b) → InOrder size capacity rest →
      InOrder size capacity (taken ++ rest)

/-- Paging through the items from a number of received ones on ends with these
received. -/
inductive Pages (size : α → Nat) (capacity : Nat) (items : List α) : List α → List α → Prop
  | last {received : List α} :
      (fill size capacity (items.drop received.length)).2 = false →
      Pages size capacity items received
        (received ++ (fill size capacity (items.drop received.length)).1)
  | next {received final : List α} :
      (fill size capacity (items.drop received.length)).2 = true →
      Pages size capacity items
        (received ++ (fill size capacity (items.drop received.length)).1) final →
      Pages size capacity items received final

theorem prefix_of_pages {items received final : List α}
    (h : Pages size capacity items received final) : received <+: final := by
  induction h with
  | last _ => exact List.prefix_append _ _
  | next _ _ ih => exact (List.prefix_append _ _).trans ih

/-- The pages are in order when the first one takes a beginning of the items and
the pages of the rest are in order. -/
theorem inOrder_iff {items : List α} :
    InOrder size capacity items ↔
      ∃ rest, items = (fill size capacity items).1 ++ rest ∧ InOrder size capacity rest := by
  apply Iff.intro
  · intro h
    cases h with
    | last hfits =>
        have hfill := @fill_append _ size capacity items [] hfits fun b hb =>
          absurd hb List.not_mem_nil
        rw [List.append_nil] at hfill
        exact ⟨[], by rw [hfill, List.append_nil], .last (Nat.zero_le _)⟩
    | @page taken rest htaken _ hbehind hrest =>
        exact ⟨rest, by rw [fill_append htaken hbehind], hrest⟩
  · rintro ⟨rest, hitems, hrest⟩
    have htaken : total size (fill size capacity items).1 ≤ capacity := total_fill_le capacity items
    rcases eq_or_ne rest [] with rfl | hne
    · rw [List.append_nil] at hitems
      rw [← hitems] at htaken
      exact .last htaken
    · have hbehind := @lt_of_fill_append _ size capacity (fill size capacity items).1 rest
        (by rw [← hitems])
      rw [hitems]
      exact .page htaken hne hbehind hrest

/-- What is received in the end is the list exactly when the pages are in order,
for a receiver that has a beginning of it. -/
theorem eq_iff_inOrder {items received final : List α}
    (h : Pages size capacity items received final) (hreceived : received <+: items) :
    final = items ↔ InOrder size capacity (items.drop received.length) := by
  induction h with
  | @last received hmore =>
      have hall := fill_of_not_more hmore
      have hitems : received ++ items.drop received.length = items :=
        List.prefix_iff_eq_append.mp hreceived
      refine iff_of_true (by rw [hall, hitems]) (.last ?_)
      have hle : total size (fill size capacity (items.drop received.length)).1 ≤ capacity :=
        total_fill_le capacity _
      rwa [hall] at hle
  | @next received final hmore hpages ih =>
      have hitems : received ++ items.drop received.length = items :=
        List.prefix_iff_eq_append.mp hreceived
      generalize hpage : items.drop received.length = offered at *
      have hdrop : ∀ rest, offered = (fill size capacity offered).1 ++ rest →
          items.drop (received ++ (fill size capacity offered).1).length = rest := by
        intro rest hrest
        rw [List.length_append, ← List.drop_drop, hpage, hrest, List.drop_left' (by rw [← hrest])]
      rw [inOrder_iff]
      apply Iff.intro
      · rintro rfl
        have hprefix : (fill size capacity offered).1 <+: offered := by
          have hpre := prefix_of_pages hpages
          rw [← hitems, List.prefix_append_right_inj] at hpre
          exact hpre
        obtain ⟨rest, hrest⟩ := hprefix
        have hinOrder := (ih (prefix_of_pages hpages)).mp rfl
        rw [hdrop rest hrest.symm] at hinOrder
        exact ⟨rest, hrest.symm, hinOrder⟩
      · rintro ⟨rest, hrest, hinOrder⟩
        refine (ih ?_).mpr (hdrop rest hrest ▸ hinOrder)
        rw [← hitems, List.prefix_append_right_inj]
        exact ⟨rest, hrest.symm⟩

/-! ## A receiver that counts more -/

section Counting

variable (size capacity) (count : List α → Nat) (items : List α)

/-- The positions from which pages are asked for by a receiver that counts so many
items on a page. -/
inductive Asked : Nat → Prop
  | first : Asked 0
  | next {i : Nat} : Asked i → (fill size capacity (items.drop i)).2 = true →
      Asked (i + count (fill size capacity (items.drop i)).1)

/-- Asking from a position on, at most so many pages come up to the last one; each
position is one of the list, and the next one is behind it. -/
def EndsWithin : Nat → Nat → Prop
  | 0, _ => False
  | n + 1, i => i < items.length ∧
      ((fill size capacity (items.drop i)).2 = true →
        count (fill size capacity (items.drop i)).1 ≠ 0 ∧
          EndsWithin n (i + count (fill size capacity (items.drop i)).1))

variable {size capacity count items}

theorem lt_of_endsWithin {n i : Nat} (h : EndsWithin size capacity count items n i) :
    i < items.length := by
  cases n with
  | zero => exact absurd h id
  | succ n => exact h.1

/-- Paging never comes to an end before the last item fits on a page. -/
theorem size_getLast_le_of_endsWithin {n i : Nat}
    (h : EndsWithin size capacity count items n i) :
    ∀ a ∈ items.getLast?, size a ≤ capacity := by
  induction n generalizing i with
  | zero => exact absurd h id
  | succ n ih =>
      cases hmore : (fill size capacity (items.drop i)).2 with
      | true => exact ih (h.2 hmore).2
      | false =>
          intro a ha
          refine size_le_of_not_more hmore a (List.mem_of_getLast? ?_)
          rw [List.getLast?_drop, if_neg (Nat.not_le_of_lt h.1)]
          exact ha

theorem endsWithin_of_asked {n i : Nat} (h : EndsWithin size capacity count items n 0)
    (hasked : Asked size capacity count items i) :
    ∃ m, EndsWithin size capacity count items m i := by
  induction hasked with
  | first => exact ⟨n, h⟩
  | next _ hmore ih =>
      obtain ⟨m, hm⟩ := ih
      cases m with
      | zero => exact absurd hm id
      | succ m => exact ⟨m, (hm.2 hmore).2⟩

/-- What is left to ask for shrinks from page to page. -/
theorem endsWithin_of_last (hcount : ∀ page, page.length ≤ count page)
    (hlast : ∀ a ∈ items.getLast?, size a ≤ capacity)
    (hlt : ∀ i, Asked size capacity count items i → i < items.length) {n i : Nat}
    (hn : items.length ≤ i + n) (hasked : Asked size capacity count items i) :
    EndsWithin size capacity count items n i := by
  induction n generalizing i with
  | zero => exact absurd (hlt i hasked) (Nat.not_lt_of_le hn)
  | succ n ih =>
      refine ⟨hlt i hasked, fun hmore => ?_⟩
      have hne : items ≠ [] := List.ne_nil_of_length_pos (Nat.zero_lt_of_lt (hlt i hasked))
      have hmem : items.getLast hne ∈ items.drop i := by
        refine List.mem_of_getLast? ?_
        rw [List.getLast?_drop, if_neg (Nat.not_le_of_lt (hlt i hasked)),
          List.getLast?_eq_some_getLast hne]
      have hpage : (fill size capacity (items.drop i)).1 ≠ [] :=
        fill_ne_nil_of_mem hmem (hlast _ (List.getLast?_eq_some_getLast hne))
      have hpos : 0 < count (fill size capacity (items.drop i)).1 :=
        Nat.lt_of_lt_of_le (List.length_pos_iff.mpr hpage) (hcount _)
      exact ⟨hpos.ne', ih (by omega) (.next hasked hmore)⟩

/-- A receiver that counts no fewer items than there are sees the last page after
at most as many as there are items exactly when the last item fits on a page and no
page is asked for from behind the list. -/
theorem endsWithin_iff (hcount : ∀ page, page.length ≤ count page) :
    EndsWithin size capacity count items items.length 0 ↔
      (∀ a ∈ items.getLast?, size a ≤ capacity) ∧
        ∀ i, Asked size capacity count items i → i < items.length := by
  apply Iff.intro
  · intro h
    refine ⟨size_getLast_le_of_endsWithin h, fun i hasked => ?_⟩
    obtain ⟨m, hm⟩ := endsWithin_of_asked h hasked
    exact lt_of_endsWithin hm
  · rintro ⟨hlast, hlt⟩
    exact endsWithin_of_last hcount hlast hlt (Nat.le_add_left _ _) .first

/-- Counting the items exactly, no page is asked for from behind the list. -/
theorem lt_of_asked_of_exact (hcount : ∀ page, page.Sublist items → count page = page.length)
    (hne : items ≠ []) {i : Nat} (hasked : Asked size capacity count items i) :
    i < items.length := by
  induction hasked with
  | first => exact List.length_pos_iff.mpr hne
  | @next i _ hmore ih =>
      have hlt := length_fill_lt hmore
      rw [hcount _ ((fill_sublist _ _).trans (List.drop_sublist _ _))]
      rw [List.length_drop] at hlt
      omega

end Counting

end RoutePlanner.Math.GreedyPages
