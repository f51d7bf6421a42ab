/-
# Delimited text, read the way an input stream reads it

`getline` takes the characters before the next delimiter and says whether a
delimiter was met or the input ran out first.  Three loops are built from it,
which differ only in what they do with the last, undelimited piece: a loop that
runs while the stream is good keeps it, a loop that runs while reading succeeds
keeps it unless it is empty, and a loop that searches for the next delimiter
drops it.
-/

import Mathlib.Data.List.DropRight
import Mathlib.Data.List.Infix

namespace RoutePlanner.Std.Text

universe u

variable {α : Type u} [DecidableEq α]

/-- One read up to a delimiter: the characters before it, and the input behind
it.  The second component is `none` when the input ended first. -/
def getline (delim : α) : List α → List α × Option (List α)
  | [] => ([], none)
  | c :: input =>
      if c = delim then ([], some input)
      else (c :: (getline delim input).1, (getline delim input).2)

/-- Repeated `getline`.  Every round consumes at least the delimiter, so one
round more than there are characters is enough. -/
def tokensFrom (delim : α) (last : List α → List (List α)) :
    Nat → List α → List (List α)
  | 0, _ => []
  | fuel + 1, input =>
      match getline delim input with
      | (token, none) => last token
      | (token, some rest) => token :: tokensFrom delim last fuel rest

/-- The pieces of the input; `last` decides what becomes of the final piece,
the one that no delimiter ends. -/
def tokens (delim : α) (last : List α → List (List α)) (input : List α) :
    List (List α) :=
  tokensFrom delim last (input.length + 1) input

/-- `while (file.good()) std::getline(file, line)`: the final piece is a line
too, also when it is empty. -/
def lines (delim : α) (input : List α) : List (List α) :=
  tokens delim (fun token => [token]) input

/-- `while (std::getline(ss, value, delim))`: an empty final piece sets the
fail bit, so the loop body does not see it. -/
def fields (delim : α) (input : List α) : List (List α) :=
  tokens delim (fun token => if token = [] then [] else [token]) input

/-- `while ((pos = s.find(delim)) != npos)`: only pieces that a delimiter ends. -/
def terminated (delim : α) (input : List α) : List (List α) :=
  tokens delim (fun _ => []) input

/-! ## One read -/

theorem getline_eq_none {delim : α} {input : List α} (h : delim ∉ input) :
    getline delim input = (input, none) := by
  induction input with
  | nil => rfl
  | cons c input ih =>
      obtain ⟨hc, hrest⟩ := not_or.mp (List.mem_cons.not.mp h)
      rw [getline, if_neg (Ne.symm hc), ih hrest]

theorem getline_append {delim : α} {token : List α} (h : delim ∉ token)
    (rest : List α) :
    getline delim (token ++ delim :: rest) = (token, some rest) := by
  induction token with
  | nil => simp [getline]
  | cons c token ih =>
      obtain ⟨hc, htoken⟩ := not_or.mp (List.mem_cons.not.mp h)
      rw [List.cons_append, getline, if_neg (Ne.symm hc), ih htoken]

/-- Induction along the delimiters of an input, in the order `getline` meets
them. -/
theorem delimInduction (delim : α) {motive : List α → Prop}
    (last : ∀ input, delim ∉ input → motive input)
    (step : ∀ token rest, delim ∉ token → motive rest →
      motive (token ++ delim :: rest)) :
    ∀ input, motive input := by
  intro input
  induction hlen : input.length using Nat.strong_induction_on generalizing input with
  | _ n ih =>
      by_cases hmem : delim ∈ input
      · obtain ⟨token, rest, rfl, htoken⟩ := List.eq_append_cons_of_mem hmem
        refine step token rest htoken (ih rest.length ?_ rest rfl)
        simp only [List.length_append, List.length_cons] at hlen
        omega
      · exact last input hmem

/-! ## The loops -/

theorem tokensFrom_of_not_mem {delim : α} (last : List α → List (List α))
    (fuel : Nat) {input : List α} (h : delim ∉ input) :
    tokensFrom delim last (fuel + 1) input = last input := by
  simp only [tokensFrom, getline_eq_none h]

theorem tokensFrom_append {delim : α} (last : List α → List (List α))
    (fuel : Nat) {token : List α} (h : delim ∉ token) (rest : List α) :
    tokensFrom delim last (fuel + 1) (token ++ delim :: rest) =
      token :: tokensFrom delim last fuel rest := by
  simp only [tokensFrom, getline_append h]

/-- Any number of rounds above the length of the input gives the same pieces. -/
theorem tokensFrom_eq_tokens (delim : α) (last : List α → List (List α))
    (input : List α) :
    ∀ fuel, input.length < fuel →
      tokensFrom delim last fuel input = tokens delim last input := by
  induction input using delimInduction delim with
  | last input h =>
      intro fuel hfuel
      obtain ⟨fuel, rfl⟩ := Nat.exists_eq_succ_of_ne_zero (Nat.ne_of_gt (by omega : 0 < fuel))
      rw [tokensFrom_of_not_mem last fuel h, tokens, tokensFrom_of_not_mem last _ h]
  | step token rest h ih =>
      intro fuel hfuel
      obtain ⟨fuel, rfl⟩ := Nat.exists_eq_succ_of_ne_zero (Nat.ne_of_gt (by omega : 0 < fuel))
      simp only [List.length_append, List.length_cons] at hfuel
      rw [tokensFrom_append last fuel h, tokens, tokensFrom_append last _ h,
        ih fuel (by omega), ih _ (by simp only [List.length_append, List.length_cons]; omega)]

theorem tokens_of_not_mem {delim : α} (last : List α → List (List α))
    {input : List α} (h : delim ∉ input) : tokens delim last input = last input :=
  tokensFrom_of_not_mem last _ h

theorem tokens_append {delim : α} (last : List α → List (List α))
    {token : List α} (h : delim ∉ token) (rest : List α) :
    tokens delim last (token ++ delim :: rest) = token :: tokens delim last rest := by
  rw [tokens, tokensFrom_append last _ h, tokensFrom_eq_tokens]
  simp only [List.length_append, List.length_cons]
  omega

/-- A line with any character in it has at least one field. -/
theorem fields_ne_nil (delim : α) {input : List α} (hne : input ≠ []) :
    fields delim input ≠ [] := by
  by_cases hmem : delim ∈ input
  · obtain ⟨token, rest, rfl, htoken⟩ := List.eq_append_cons_of_mem hmem
    rw [fields, tokens_append _ htoken]
    exact List.cons_ne_nil _ _
  · rw [fields, tokens_of_not_mem _ hmem, if_neg hne]
    exact List.cons_ne_nil _ _

/-- Pieces written one after the other, each followed by the delimiter, are read
back as they were written, and then there is an empty final piece. -/
theorem tokens_flatMap {delim : α} (last : List α → List (List α)) {pieces : List (List α)}
    (h : ∀ piece ∈ pieces, delim ∉ piece) :
    tokens delim last (pieces.flatMap fun piece => piece ++ [delim]) = pieces ++ last [] := by
  induction pieces with
  | nil => exact tokens_of_not_mem _ (List.not_mem_nil)
  | cons piece pieces ih =>
      have hrest := ih fun later hlater => h later (List.mem_cons_of_mem _ hlater)
      rw [List.flatMap_cons, List.append_assoc, List.singleton_append,
        tokens_append _ (h piece List.mem_cons_self), hrest, List.cons_append]

theorem terminated_flatMap {delim : α} {pieces : List (List α)}
    (h : ∀ piece ∈ pieces, delim ∉ piece) :
    terminated delim (pieces.flatMap fun piece => piece ++ [delim]) = pieces := by
  rw [terminated, tokens_flatMap _ h, List.append_nil]

/-- Every delimiter ends a piece. -/
theorem length_terminated (delim : α) (input : List α) :
    (terminated delim input).length = input.count delim := by
  induction input using delimInduction delim with
  | last input h => rw [terminated, tokens_of_not_mem _ h, List.count_eq_zero_of_not_mem h]; rfl
  | step token rest h ih =>
      rw [terminated, tokens_append _ h, List.length_cons, ← terminated, ih, List.count_append,
        List.count_eq_zero_of_not_mem h, List.count_cons_self, Nat.zero_add]

/-! ## Pieces between delimiters -/

/-- A list of pieces without a last one that is empty. -/
def dropEmptyLast (pieces : List (List α)) : List (List α) :=
  if pieces.getLast? = some [] then pieces.dropLast else pieces

theorem dropEmptyLast_cons (piece : List α) {pieces : List (List α)} (hne : pieces ≠ []) :
    dropEmptyLast (piece :: pieces) = piece :: dropEmptyLast pieces := by
  obtain ⟨next, rest, rfl⟩ := List.exists_cons_of_ne_nil hne
  rw [dropEmptyLast, dropEmptyLast, List.getLast?_cons_cons]
  split <;> rfl

/-- The lines are all pieces. -/
theorem lines_eq_splitOn (delim : α) (input : List α) :
    lines delim input = input.splitOn delim := by
  induction input using delimInduction delim with
  | last input h => rw [lines, tokens_of_not_mem _ h, List.splitOn_eq_singleton h]
  | step token rest h ih =>
      rw [lines, tokens_append _ h, List.splitOn_append_cons_self_of_not_mem h, ← ih, lines]

/-- The fields are all pieces but an empty last one. -/
theorem fields_eq_splitOn (delim : α) (input : List α) :
    fields delim input = dropEmptyLast (input.splitOn delim) := by
  induction input using delimInduction delim with
  | last input h =>
      rw [fields, tokens_of_not_mem _ h, List.splitOn_eq_singleton h]
      simp [dropEmptyLast]
  | step token rest h ih =>
      rw [fields, tokens_append _ h, List.splitOn_append_cons_self_of_not_mem h,
        dropEmptyLast_cons _ (List.splitOn_ne_nil _ _), ← ih, fields]

/-- A delimiter behind the text adds an empty line. -/
theorem lines_append_delim (delim : α) (input : List α) :
    lines delim (input ++ [delim]) = lines delim input ++ [[]] := by
  rw [lines_eq_splitOn, lines_eq_splitOn, List.splitOn_append_cons_self]
  rfl

/-! ## Trimming -/

/-- Drop the characters of the given kind from both ends. -/
def trim {α : Type u} (isSpace : α → Bool) (input : List α) : List α :=
  (input.dropWhile isSpace).rdropWhile isSpace

section Trim

variable {α : Type u} {isSpace : α → Bool}

theorem rdropWhile_append_cons {c : α} (h : isSpace c = false) (left right : List α) :
    (left ++ c :: right).rdropWhile isSpace = left ++ c :: right.rdropWhile isSpace := by
  induction right using List.reverseRecOn with
  | nil => rw [List.rdropWhile_concat_neg _ _ _ (by simp [h]), List.rdropWhile_nil]
  | append_singleton right d ih =>
      rw [← List.cons_append, ← List.append_assoc]
      by_cases hd : isSpace d = true
      · rw [List.rdropWhile_concat_pos _ _ _ hd, List.rdropWhile_concat_pos _ _ _ hd, ih]
      · rw [List.rdropWhile_concat_neg _ _ _ hd, List.rdropWhile_concat_neg _ _ _ hd,
          List.append_assoc, List.cons_append]

theorem dropWhile_append_cons {c : α} (h : isSpace c = false) (left right : List α) :
    (left ++ c :: right).dropWhile isSpace = left.dropWhile isSpace ++ c :: right := by
  induction left with
  | nil => rw [List.nil_append, List.dropWhile_cons_of_neg (by simp [h]), List.dropWhile_nil,
      List.nil_append]
  | cons d left ih =>
      rw [List.cons_append]
      by_cases hd : isSpace d = true
      · rw [List.dropWhile_cons_of_pos hd, List.dropWhile_cons_of_pos hd, ih]
      · rw [List.dropWhile_cons_of_neg hd, List.dropWhile_cons_of_neg hd, List.cons_append]

/-- A character that is no blank keeps the two sides of a line apart. -/
theorem trim_append_cons {c : α} (h : isSpace c = false) (left right : List α) :
    trim isSpace (left ++ c :: right) =
      left.dropWhile isSpace ++ c :: right.rdropWhile isSpace := by
  rw [trim, dropWhile_append_cons h, rdropWhile_append_cons h]

theorem trim_dropWhile (input : List α) :
    trim isSpace (input.dropWhile isSpace) = trim isSpace input := by
  rw [trim, trim, List.dropWhile_idempotent]

theorem trim_rdropWhile (input : List α) :
    trim isSpace (input.rdropWhile isSpace) = trim isSpace input := by
  by_cases hblank : ∀ c ∈ input, isSpace c = true
  · rw [List.rdropWhile_eq_nil_iff.mpr hblank, trim, trim, List.dropWhile_eq_nil_iff.mpr hblank,
      List.dropWhile_nil]
  · -- the two ends do not meet at a character that is no blank
    push Not at hblank
    obtain ⟨c, hmem, hc⟩ := hblank
    obtain ⟨left, right, rfl⟩ := List.append_of_mem hmem
    have hc' : isSpace c = false := by simpa using hc
    rw [rdropWhile_append_cons hc', trim_append_cons hc', trim_append_cons hc',
      List.rdropWhile_idempotent]

/-- Nothing is left of a line only if it was blank. -/
theorem rdropWhile_ne_nil_of_trim {input : List α} (h : trim isSpace input ≠ []) :
    input.rdropWhile isSpace ≠ [] := by
  intro hnil
  rw [← trim_rdropWhile, hnil] at h
  exact h rfl

/-- Trimming leaves a text that is not blank at either end as it is. -/
theorem trim_of_not_isSpace {input : List α} (h : ∀ c ∈ input, isSpace c = false) :
    trim isSpace input = input := by
  have hdrop : input.dropWhile isSpace = input := by
    cases input with
    | nil => rfl
    | cons c input => rw [List.dropWhile_cons_of_neg (by simp [h c List.mem_cons_self])]
  rw [trim, hdrop, List.rdropWhile_eq_self_iff]
  exact fun hne => by simp [h _ (List.getLast_mem hne)]

end Trim

/-- A line with one delimiter has the two sides of it as fields. -/
theorem fields_append_cons {delim : α} {left right : List α} (hleft : delim ∉ left)
    (hright : delim ∉ right) (hne : right ≠ []) :
    fields delim (left ++ delim :: right) = [left, right] := by
  rw [fields, tokens_append _ hleft, tokens_of_not_mem _ hright, if_neg hne]

end RoutePlanner.Std.Text
