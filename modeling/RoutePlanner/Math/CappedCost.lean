/-
# The least cost below a cap

A search that starts its labels at a cap has no more to say of a vertex than the
cap when no walk to it is cheaper.  The capped cost of a vertex is the least of
the cap and of the costs of all walks to it.  Unlike the least cost of a walk it
always exists, so it is a function, and a label-setting search ends with it in
every graph.
-/

import RoutePlanner.Math.LabelSetting
import Mathlib.Order.Lattice.Nat

namespace RoutePlanner.Math

universe u v

variable {V : Type u} {adj adj' : V → V → Prop} {cost : V → Nat} {cap : Nat} {s t x : V}

/-- The least of the cap and the costs of all walks from `s` to `t`. -/
noncomputable def cappedCost (adj : V → V → Prop) (cost : V → Nat) (cap : Nat) (s t : V) : Nat :=
  sInf (insert cap {c | ∃ vs, Walk adj s vs t ∧ walkCost cost vs = c})

theorem cappedCost_le_cap : cappedCost adj cost cap s t ≤ cap :=
  Nat.sInf_le (Set.mem_insert _ _)

theorem cappedCost_le_walkCost {vs : List V} (h : Walk adj s vs t) :
    cappedCost adj cost cap s t ≤ walkCost cost vs :=
  Nat.sInf_le (Set.mem_insert_of_mem _ ⟨vs, h, rfl⟩)

/-- It is the cap, or a walk attains it. -/
theorem cappedCost_attained (adj : V → V → Prop) (cost : V → Nat) (cap : Nat) (s t : V) :
    cappedCost adj cost cap s t = cap ∨
      ∃ vs, Walk adj s vs t ∧ walkCost cost vs = cappedCost adj cost cap s t :=
  Nat.sInf_mem (s := insert cap {c | ∃ vs, Walk adj s vs t ∧ walkCost cost vs = c})
    ⟨cap, Set.mem_insert _ _⟩

theorem le_cappedCost_iff {c : Nat} :
    c ≤ cappedCost adj cost cap s t ↔ c ≤ cap ∧ ∀ vs, Walk adj s vs t → c ≤ walkCost cost vs := by
  apply Iff.intro
  · exact fun h => ⟨h.trans cappedCost_le_cap,
      fun _ hwalk => h.trans (cappedCost_le_walkCost hwalk)⟩
  · rintro ⟨hcap, hwalks⟩
    rcases cappedCost_attained adj cost cap s t with heq | ⟨vs, hwalk, heq⟩
    · rwa [heq]
    · exact heq ▸ hwalks vs hwalk

/-- Below the cap it is the least cost of a walk. -/
theorem isMinCost_cappedCost (h : cappedCost adj cost cap s t < cap) :
    IsMinCost adj cost s t (cappedCost adj cost cap s t) := by
  refine ⟨?_, ?_⟩
  · exact (cappedCost_attained adj cost cap s t).resolve_left (Nat.ne_of_lt h)
  · rintro _ ⟨vs, hwalk, rfl⟩
    exact cappedCost_le_walkCost hwalk

@[simp]
theorem cappedCost_self (adj : V → V → Prop) (cost : V → Nat) (cap : Nat) (s : V) :
    cappedCost adj cost cap s s = 0 :=
  Nat.le_zero.mp (cappedCost_le_walkCost (.nil s))

/-- A way through another vertex is never cheaper. -/
theorem cappedCost_triangle :
    cappedCost adj cost cap s t ≤ cappedCost adj cost cap s x + cappedCost adj cost cap x t := by
  rcases cappedCost_attained adj cost cap s x with heq | ⟨vs, hvs, heq⟩
  · exact cappedCost_le_cap.trans (heq.ge.trans (Nat.le_add_right _ _))
  · rcases cappedCost_attained adj cost cap x t with heq' | ⟨ws, hws, heq'⟩
    · exact cappedCost_le_cap.trans (heq'.ge.trans (Nat.le_add_left _ _))
    · rw [← heq, ← heq', ← walkCost_append]
      exact cappedCost_le_walkCost (hvs.append hws)

/-- A graph with other names for its vertices has the same capped costs. -/
theorem cappedCost_map {W : Type v} {adj' : W → W → Prop} {cost' : W → Nat} (e : V ≃ W)
    (hadj : ∀ a b, adj a b ↔ adj' (e a) (e b)) (hcost : ∀ a, cost a = cost' (e a)) :
    cappedCost adj cost cap s t = cappedCost adj' cost' cap (e s) (e t) := by
  have hback : ∀ a b, adj' a b → adj (e.symm a) (e.symm b) := by
    intro a b hab
    rwa [hadj, e.apply_symm_apply, e.apply_symm_apply]
  have hcost' : ∀ b, cost' b = cost (e.symm b) := by
    intro b
    rw [hcost, e.apply_symm_apply]
  refine le_antisymm ?_ ?_
  · refine le_cappedCost_iff.mpr ⟨cappedCost_le_cap, fun ws hwalk => ?_⟩
    have hwalk' := hwalk.map e.symm hback
    rw [e.symm_apply_apply, e.symm_apply_apply] at hwalk'
    exact walkCost_map e.symm hcost' ws ▸ cappedCost_le_walkCost hwalk'
  · refine le_cappedCost_iff.mpr ⟨cappedCost_le_cap, fun vs hwalk => ?_⟩
    exact walkCost_map e hcost vs ▸
      cappedCost_le_walkCost (hwalk.map e fun a b => (hadj a b).mp)

namespace Labels

variable [DecidableEq V] {σ σ' : Labels V}

/-- No label is above the cap, and one below it is the cost of a walk. -/
structure Sound (adj : V → V → Prop) (cost : V → Nat) (cap : Nat) (s : V) (σ : Labels V) :
    Prop where
  le_cap : ∀ v, σ.label v ≤ cap
  walk : ∀ v, σ.label v < cap → ∃ ws, Walk adj s ws v ∧ walkCost cost ws = σ.label v

theorem Sound.start : Sound adj cost cap s (Labels.start cap s) where
  le_cap v := by
    simp only [Labels.start]
    split
    · exact Nat.zero_le _
    · exact le_refl _
  walk v hv := by
    obtain rfl : v = s := by
      by_contra hne
      simp [Labels.start, hne] at hv
    exact ⟨[], .nil _, by simp [Labels.start]⟩

/-- Settling a vertex lowers labels, each to the cost of one more walk. -/
theorem Sound.settle (h : Sound adj cost cap s σ) {u : V}
    (hstep : Settle adj cost cap t σ u σ') : Sound adj cost cap s σ' where
  le_cap v := (hstep.le v).trans (h.le_cap v)
  walk v hv := by
    rcases hstep.eq_or_relaxed v with heq | ⟨-, hadj, hu, heq⟩
    · rw [heq] at hv ⊢
      exact h.walk v hv
    · obtain ⟨ws, hws, hwcost⟩ := h.walk u hu
      exact ⟨ws ++ [v], hws.concat hadj, by simp [heq, hwcost]⟩

theorem Sound.settles {n : Nat} (h : Sound adj cost cap s σ)
    (hrun : Settles adj cost cap t n σ σ') : Sound adj cost cap s σ' := by
  induction hrun with
  | zero => exact h
  | succ _ hstep ih => exact (ih h).settle hstep

/-- With all vertices settled but one, the label of the target is its capped cost,
whatever walks there are. -/
theorem label_eq_cappedCost [Fintype V] {n : Nat} (hn : Fintype.card V ≤ n + 1)
    (hrun : Settles adj cost cap t n (Labels.start cap s) σ) :
    σ.label t = cappedCost adj cost cap s t := by
  have hsound := Sound.start.settles hrun
  rcases lt_or_ge (cappedCost adj cost cap s t) cap with hlt | hge
  · exact label_eq_minCost hn hrun (isMinCost_cappedCost hlt) hlt
  · have hcap := le_antisymm (@cappedCost_le_cap _ adj cost cap s t) hge
    rw [hcap]
    -- a label below the cap would be the cost of a walk
    refine le_antisymm (hsound.le_cap t) (Nat.le_of_not_lt fun hlt => ?_)
    obtain ⟨ws, hws, hwcost⟩ := hsound.walk t hlt
    have hle : cappedCost adj cost cap s t ≤ σ.label t := hwcost ▸ cappedCost_le_walkCost hws
    exact absurd (hcap ▸ hle) (Nat.not_le_of_lt hlt)

end Labels

end RoutePlanner.Math
