/-
# Walks whose cost is paid at the vertices

A walk is given by the vertices it enters, in order; the start is not entered.
Each entry costs what the vertex costs.  A best walk is one of least cost, and
among these one with the fewest entries: it never takes a detour to a vertex
that it could have entered at once.
-/

import Mathlib.Order.Bounds.Basic
import Mathlib.Order.WellFounded
import Mathlib.Logic.Equiv.Defs

namespace RoutePlanner.Math

universe u

variable {V : Type u} {adj : V → V → Prop} {cost : V → Nat}

/-- `Walk adj s vs t`: entering the vertices `vs` in order leads from `s` to
`t`. -/
inductive Walk (adj : V → V → Prop) : V → List V → V → Prop
  | nil (s : V) : Walk adj s [] s
  | cons {s v t : V} {vs : List V} : adj s v → Walk adj v vs t → Walk adj s (v :: vs) t

/-- What entering a list of vertices costs. -/
def walkCost (cost : V → Nat) : List V → Nat
  | [] => 0
  | v :: vs => cost v + walkCost cost vs

/-- The least cost of a walk between two vertices. -/
def IsMinCost (adj : V → V → Prop) (cost : V → Nat) (s t : V) (d : Nat) : Prop :=
  IsLeast {c | ∃ vs, Walk adj s vs t ∧ walkCost cost vs = c} d

@[simp]
theorem walkCost_nil : walkCost cost [] = 0 := rfl

@[simp]
theorem walkCost_cons (v : V) (vs : List V) :
    walkCost cost (v :: vs) = cost v + walkCost cost vs := rfl

@[simp]
theorem walkCost_append (vs ws : List V) :
    walkCost cost (vs ++ ws) = walkCost cost vs + walkCost cost ws := by
  induction vs with
  | nil => rw [List.nil_append, walkCost_nil, Nat.zero_add]
  | cons v vs ih => rw [List.cons_append, walkCost_cons, walkCost_cons, ih, Nat.add_assoc]

namespace Walk

@[simp]
theorem nil_iff {s t : V} : Walk adj s [] t ↔ s = t := by
  apply Iff.intro
  · rintro ⟨⟩
    rfl
  · rintro rfl
    exact .nil _

@[simp]
theorem cons_iff {s v t : V} {vs : List V} :
    Walk adj s (v :: vs) t ↔ adj s v ∧ Walk adj v vs t := by
  apply Iff.intro
  · rintro (_ | ⟨hadj, hwalk⟩)
    exact ⟨hadj, hwalk⟩
  · exact fun h => .cons h.1 h.2

/-- A walk passes every point of its list. -/
theorem append_iff {s t : V} {vs ws : List V} :
    Walk adj s (vs ++ ws) t ↔ ∃ x, Walk adj s vs x ∧ Walk adj x ws t := by
  induction vs generalizing s with
  | nil => simp
  | cons v vs ih => simp only [List.cons_append, cons_iff, ih, exists_and_left, and_assoc]

theorem append {s x t : V} {vs ws : List V} (h : Walk adj s vs x) (h' : Walk adj x ws t) :
    Walk adj s (vs ++ ws) t :=
  append_iff.mpr ⟨x, h, h'⟩

theorem concat {s x y : V} {vs : List V} (h : Walk adj s vs x) (hadj : adj x y) :
    Walk adj s (vs ++ [y]) y :=
  h.append (.cons hadj (.nil y))

end Walk

/-- Staying costs nothing. -/
theorem isMinCost_refl (s : V) : IsMinCost adj cost s s 0 :=
  ⟨⟨[], .nil s, rfl⟩, fun _ _ => Nat.zero_le _⟩

/-! ## Renaming -/

section Map

universe v

variable {W : Type v} {adj' : W → W → Prop} {cost' : W → Nat} (e : V ≃ W)

theorem Walk.map (hadj : ∀ a b, adj a b → adj' (e a) (e b)) {s t : V} {vs : List V}
    (h : Walk adj s vs t) : Walk adj' (e s) (vs.map e) (e t) := by
  induction h with
  | nil s => exact .nil _
  | cons hstep _ ih => exact .cons (hadj _ _ hstep) ih

theorem walkCost_map (hcost : ∀ a, cost a = cost' (e a)) (vs : List V) :
    walkCost cost' (vs.map e) = walkCost cost vs := by
  induction vs with
  | nil => rfl
  | cons v vs ih => rw [List.map_cons, walkCost_cons, walkCost_cons, ih, hcost]

/-- A graph with other names for its vertices has the same least costs. -/
theorem isMinCost_map (hadj : ∀ a b, adj a b ↔ adj' (e a) (e b))
    (hcost : ∀ a, cost a = cost' (e a)) {s t : V} {d : Nat} :
    IsMinCost adj cost s t d ↔ IsMinCost adj' cost' (e s) (e t) d := by
  have hset : {c | ∃ vs, Walk adj s vs t ∧ walkCost cost vs = c} =
      {c | ∃ ws, Walk adj' (e s) ws (e t) ∧ walkCost cost' ws = c} := by
    ext c
    apply Iff.intro
    · rintro ⟨vs, hwalk, rfl⟩
      exact ⟨_, hwalk.map e fun a b => (hadj a b).mp, walkCost_map e hcost vs⟩
    · rintro ⟨ws, hwalk, rfl⟩
      have hback : ∀ a b, adj' a b → adj (e.symm a) (e.symm b) := by
        intro a b hab
        rwa [hadj, e.apply_symm_apply, e.apply_symm_apply]
      have hcost' : ∀ b, cost' b = cost (e.symm b) := by
        intro b
        rw [hcost, e.apply_symm_apply]
      have hwalk' := hwalk.map e.symm hback
      rw [e.symm_apply_apply, e.symm_apply_apply] at hwalk'
      exact ⟨_, hwalk', walkCost_map e.symm hcost' ws⟩
  rw [IsMinCost, IsMinCost, hset]

end Map

/-- A walk of least cost, and with the fewest entries among those. -/
structure BestWalk (adj : V → V → Prop) (cost : V → Nat) (s : V) (vs : List V) (t : V) : Prop where
  walk : Walk adj s vs t
  cheapest : ∀ ws, Walk adj s ws t → walkCost cost vs ≤ walkCost cost ws
  shortest : ∀ ws, Walk adj s ws t → walkCost cost ws = walkCost cost vs → vs.length ≤ ws.length

namespace BestWalk

variable {s t : V} {vs : List V}

/-- Where there is a least cost there is a best walk. -/
theorem exists_of_isMinCost {d : Nat} (h : IsMinCost adj cost s t d) :
    ∃ vs, BestWalk adj cost s vs t ∧ walkCost cost vs = d := by
  obtain ⟨⟨vs₀, hwalk₀, hcost₀⟩, hleast⟩ := h
  let best := {vs : List V | Walk adj s vs t ∧ walkCost cost vs = d}
  have hne : best.Nonempty := ⟨vs₀, hwalk₀, hcost₀⟩
  obtain ⟨hwalk, hcost⟩ := Function.argminOn_mem (List.length (α := V)) best hne
  refine ⟨_, ⟨hwalk, fun ws hws => ?_, fun ws hws heq => ?_⟩, hcost⟩
  · rw [hcost]
    exact hleast ⟨ws, hws, rfl⟩
  · exact Function.argminOn_le (List.length (α := V)) best ⟨hws, heq.trans hcost⟩

variable {vs₁ vs₂ : List V} {x : V}

/-- Every point of a best walk is reached at its own least cost. -/
theorem prefix_cheapest (h : BestWalk adj cost s (vs₁ ++ vs₂) t) (htail : Walk adj x vs₂ t)
    {ws : List V} (hws : Walk adj s ws x) : walkCost cost vs₁ ≤ walkCost cost ws := by
  have hle := h.cheapest _ (hws.append htail)
  rw [walkCost_append, walkCost_append] at hle
  exact Nat.le_of_add_le_add_right hle

/-- From a point that is not the last but one, a best walk cannot enter its end
at once. -/
theorem not_adj_end (h : BestWalk adj cost s (vs₁ ++ vs₂) t) (hx : Walk adj s vs₁ x)
    (htail : Walk adj x vs₂ t) (hlen : 2 ≤ vs₂.length) : ¬ adj x t := by
  intro hadj
  have hshort : Walk adj s (vs₁ ++ [t]) t := hx.concat hadj
  -- entering `t` is the last cost of the walk as well
  have hlast : cost t ≤ walkCost cost vs₂ := by
    obtain ⟨ws, y, rfl⟩ := List.eq_nil_or_concat vs₂ |>.resolve_left (by rintro rfl; simp at hlen)
    obtain ⟨z, -, hz⟩ := Walk.append_iff.mp (List.concat_eq_append ▸ htail)
    obtain rfl : y = t := Walk.nil_iff.mp (Walk.cons_iff.mp hz).2
    simp
  have hcost : walkCost cost (vs₁ ++ [t]) = walkCost cost (vs₁ ++ vs₂) := by
    refine Nat.le_antisymm ?_ (h.cheapest _ hshort)
    simpa using hlast
  have hle := h.shortest _ hshort hcost
  simp only [List.length_append, List.length_singleton] at hle
  omega

end BestWalk

end RoutePlanner.Math
