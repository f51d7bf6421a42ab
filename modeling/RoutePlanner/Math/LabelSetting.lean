/-
# Label setting

A search keeps a label for every vertex, and settles the vertices one by one,
always one with the least label among those that are left.  Settling a vertex
relaxes its unsettled neighbours, with one liberty: when the target is among
them, nothing is promised about the others.  Labels start at a cap, which means
that no walk was found.

The liberty costs nothing, because entering the target is paid at the target:
from a vertex that could enter it at once, every other way there is at least as
expensive.
-/

import RoutePlanner.Math.Walk
import Mathlib.Data.Fintype.Card

namespace RoutePlanner.Math

universe u

variable {V : Type u} [DecidableEq V]

/-- Labels, and the vertices that are settled. -/
structure Labels (V : Type u) where
  label : V → Nat
  settled : Finset V

namespace Labels

/-- Only the start has a label below the cap. -/
def start (cap : Nat) (s : V) : Labels V :=
  ⟨fun v => if v = s then 0 else cap, ∅⟩

/-- Settling `u` leads from `σ` to `σ'`. -/
structure Settle (adj : V → V → Prop) (cost : V → Nat) (cap : Nat) (t : V)
    (σ : Labels V) (u : V) (σ' : Labels V) : Prop where
  unsettled : u ∉ σ.settled
  least : ∀ v, v ∉ σ.settled → σ.label u ≤ σ.label v
  settled_eq : σ'.settled = insert u σ.settled
  le : ∀ v, σ'.label v ≤ σ.label v
  eq_or_relaxed : ∀ v, σ'.label v = σ.label v ∨
    (v ∉ σ'.settled ∧ adj u v ∧ σ.label u < cap ∧ σ'.label v = σ.label u + cost v)
  relaxes : ∀ v, v ∉ σ'.settled → adj u v → σ.label u < cap → v = t ∨ ¬ adj u t →
    σ'.label v ≤ σ.label u + cost v

/-- A number of vertices settled one after the other. -/
inductive Settles (adj : V → V → Prop) (cost : V → Nat) (cap : Nat) (t : V) :
    Nat → Labels V → Labels V → Prop
  | zero (σ : Labels V) : Settles adj cost cap t 0 σ σ
  | succ {n : Nat} {σ σ' σ'' : Labels V} {u : V} : Settles adj cost cap t n σ σ' →
      Settle adj cost cap t σ' u σ'' → Settles adj cost cap t (n + 1) σ σ''

variable {adj : V → V → Prop} {cost : V → Nat} {cap : Nat} {s t : V}

/-- What is known of the labels along a best walk: labels are costs of walks, a
settled point has the cost of the walk up to it, and the point behind a settled
one was relaxed. -/
structure Tracks (adj : V → V → Prop) (cost : V → Nat) (cap : Nat) (s : V) (vs : List V) (t : V)
    (σ : Labels V) : Prop where
  start_zero : s ∉ σ.settled → σ.label s = 0
  sound : ∀ v, σ.label v < cap → ∃ ws, Walk adj s ws v ∧ walkCost cost ws = σ.label v
  settled_exact : ∀ vs₁ x vs₂, vs = vs₁ ++ vs₂ → Walk adj s vs₁ x → Walk adj x vs₂ t →
    x ∈ σ.settled → σ.label x = walkCost cost vs₁
  next_relaxed : ∀ vs₁ x y vs₂, vs = vs₁ ++ y :: vs₂ → Walk adj s vs₁ x → adj x y →
    Walk adj y vs₂ t → x ∈ σ.settled → y ∉ σ.settled → σ.label y ≤ walkCost cost vs₁ + cost y

namespace Tracks

variable {vs : List V} {σ σ' : Labels V}

theorem start : Tracks adj cost cap s vs t (Labels.start cap s) where
  start_zero _ := if_pos rfl
  sound v hv := by
    obtain rfl : v = s := by
      by_contra hne
      rw [Labels.start] at hv
      simp [hne] at hv
    exact ⟨[], .nil _, by simp [Labels.start]⟩
  settled_exact _ x _ _ _ _ hx := absurd hx (Finset.notMem_empty x)
  next_relaxed _ x _ _ _ _ _ _ hx := absurd hx (Finset.notMem_empty x)

omit [DecidableEq V] in
/-- A label never goes below the least cost. -/
theorem le_label (h : Tracks adj cost cap s vs t σ) (hbest : BestWalk adj cost s vs t)
    (hcost : walkCost cost vs < cap) {vs₁ vs₂ : List V} {x : V} (hvs : vs = vs₁ ++ vs₂)
    (htail : Walk adj x vs₂ t) : walkCost cost vs₁ ≤ σ.label x := by
  subst hvs
  rcases lt_or_ge (σ.label x) cap with hlt | hge
  · obtain ⟨ws, hws, heq⟩ := h.sound x hlt
    exact heq ▸ hbest.prefix_cheapest htail hws
  · rw [walkCost_append] at hcost
    omega

/-- In front of an unsettled point of the walk, or at it, there is one whose
label is as low as the walk up to the former. -/
theorem exists_unsettled (h : Tracks adj cost cap s vs t σ) {vs₁ : List V} :
    ∀ {vs₂ : List V} {x : V}, vs = vs₁ ++ vs₂ → Walk adj s vs₁ x → Walk adj x vs₂ t →
      x ∉ σ.settled → ∃ y, y ∉ σ.settled ∧ σ.label y ≤ walkCost cost vs₁ := by
  induction vs₁ using List.reverseRecOn with
  | nil =>
      intro vs₂ x _ hx _ hunsettled
      obtain rfl := Walk.nil_iff.mp hx
      exact ⟨s, hunsettled, (h.start_zero hunsettled).le⟩
  | append_singleton vs₁ y ih =>
      intro vs₂ x hvs hx htail hunsettled
      obtain ⟨w, hw, hlast⟩ := Walk.append_iff.mp hx
      obtain ⟨hadj, hxy⟩ := Walk.cons_iff.mp hlast
      obtain rfl := Walk.nil_iff.mp hxy
      rw [List.append_assoc, List.singleton_append] at hvs
      by_cases hsettled : w ∈ σ.settled
      · refine ⟨y, hunsettled, ?_⟩
        simpa using h.next_relaxed vs₁ w y vs₂ hvs hw hadj htail hsettled hunsettled
      · obtain ⟨z, hz, hle⟩ := ih hvs hw (.cons hadj htail) hsettled
        refine ⟨z, hz, hle.trans ?_⟩
        simp

/-- Settling a vertex keeps the labels on track. -/
theorem settle (h : Tracks adj cost cap s vs t σ) (hbest : BestWalk adj cost s vs t)
    (hcost : walkCost cost vs < cap) {u : V} (hstep : Settle adj cost cap t σ u σ') :
    Tracks adj cost cap s vs t σ' := by
  have hmem : ∀ x, x ∈ σ'.settled ↔ x = u ∨ x ∈ σ.settled := by
    intro x
    rw [hstep.settled_eq, Finset.mem_insert]
  -- the selected vertex has the cost of the walk up to it, wherever the walk meets it
  have hexact : ∀ vs₁ vs₂, vs = vs₁ ++ vs₂ → Walk adj s vs₁ u → Walk adj u vs₂ t →
      σ.label u = walkCost cost vs₁ := by
    intro vs₁ vs₂ hvs hu htail
    obtain ⟨y, hy, hle⟩ := h.exists_unsettled hvs hu htail hstep.unsettled
    exact le_antisymm ((hstep.least y hy).trans hle) (h.le_label hbest hcost hvs htail)
  have hkept : ∀ x, x ∈ σ'.settled → σ'.label x = σ.label x := by
    intro x hx
    exact (hstep.eq_or_relaxed x).resolve_right fun hrelaxed => hrelaxed.1 hx
  refine ⟨?_, ?_, ?_, ?_⟩
  · intro hs
    have hs₀ : s ∉ σ.settled := fun hmem' => hs ((hmem s).mpr (Or.inr hmem'))
    have hle := hstep.le s
    rw [h.start_zero hs₀] at hle
    exact Nat.le_zero.mp hle
  · intro v hv
    rcases hstep.eq_or_relaxed v with heq | ⟨-, hadj, hu, heq⟩
    · rw [heq] at hv ⊢
      exact h.sound v hv
    · obtain ⟨ws, hws, hwcost⟩ := h.sound u hu
      exact ⟨ws ++ [v], hws.concat hadj, by simp [heq, hwcost]⟩
  · intro vs₁ x vs₂ hvs hx htail hsettled
    rw [hkept x hsettled]
    rcases (hmem x).mp hsettled with rfl | hsettled
    · exact hexact vs₁ vs₂ hvs hx htail
    · exact h.settled_exact vs₁ x vs₂ hvs hx htail hsettled
  · intro vs₁ x y vs₂ hvs hx hadj htail hsettled hy
    have hy₀ : y ∉ σ.settled := fun hmem' => hy ((hmem y).mpr (Or.inr hmem'))
    rcases (hmem x).mp hsettled with rfl | hsettled
    · have hlabel := hexact vs₁ (y :: vs₂) hvs hx (.cons hadj htail)
      rw [← hlabel]
      refine hstep.relaxes y hy hadj ?_ ?_
      · rw [hlabel]
        rw [hvs, walkCost_append] at hcost
        omega
      · -- either `y` is the end, or the end cannot be entered from here
        cases vs₂ with
        | nil => exact Or.inl (Walk.nil_iff.mp htail)
        | cons z vs₃ =>
            subst hvs
            exact Or.inr (hbest.not_adj_end hx (.cons hadj htail) (by simp))
    · exact (hstep.le y).trans (h.next_relaxed vs₁ x y vs₂ hvs hx hadj htail hsettled hy₀)

theorem settles {n : Nat} (h : Tracks adj cost cap s vs t σ) (hbest : BestWalk adj cost s vs t)
    (hcost : walkCost cost vs < cap) (hrun : Settles adj cost cap t n σ σ') :
    Tracks adj cost cap s vs t σ' := by
  induction hrun with
  | zero => exact h
  | succ _ hstep ih => exact (ih h).settle hbest hcost hstep

end Tracks

theorem card_settled {n : Nat} {σ σ' : Labels V} (hrun : Settles adj cost cap t n σ σ') :
    σ'.settled.card = σ.settled.card + n := by
  induction hrun with
  | zero => rfl
  | succ _ hstep ih =>
      rw [hstep.settled_eq, Finset.card_insert_of_notMem hstep.unsettled, ih, Nat.add_assoc]

/-- With all vertices settled but one, the label of the target is the least cost
of a walk to it, if there is a walk that costs less than the cap. -/
theorem label_eq_minCost [Fintype V] {σ : Labels V} {n : Nat} (hn : Fintype.card V ≤ n + 1)
    (hrun : Settles adj cost cap t n (start cap s) σ) {d : Nat}
    (hd : IsMinCost adj cost s t d) (hcap : d < cap) : σ.label t = d := by
  obtain ⟨vs, hbest, rfl⟩ := BestWalk.exists_of_isMinCost hd
  have htracks := Tracks.start.settles hbest hcap hrun
  have hend : vs = vs ++ [] := (List.append_nil vs).symm
  refine le_antisymm ?_ (htracks.le_label hbest hcap hend (.nil t))
  by_cases ht : t ∈ σ.settled
  · exact (htracks.settled_exact vs t [] hend hbest.walk (.nil t) ht).le
  · obtain ⟨y, hy, hle⟩ := htracks.exists_unsettled hend hbest.walk (.nil t) ht
    -- only one vertex is left
    have hcard : σ.settled.card = n := by
      rw [card_settled hrun]
      simp [start]
    have hone : (σ.settledᶜ).card ≤ 1 := by
      rw [Finset.card_compl, hcard]
      omega
    obtain rfl := Finset.card_le_one.mp hone y (Finset.mem_compl.mpr hy) t (Finset.mem_compl.mpr ht)
    exact hle

end Labels

end RoutePlanner.Math
