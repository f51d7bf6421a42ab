/-
# Machines that may fault, and what holds along their runs

A machine is a step function that returns the next state or a fault.  A run
feeds it a list of events.  The rules below turn a statement about one step into
one about every run: an invariant under a condition that each step of the run
meets, and a simulation by a machine that cannot fault.
-/

import RoutePlanner.Std.Fault

namespace RoutePlanner.Std.Machine

universe u v w

variable {σ : Type u} {ε : Type v} {τ : Type w} {step : σ → ε → Except Fault σ}

/-- The state after a list of events. -/
def run (step : σ → ε → Except Fault σ) (s : σ) (events : List ε) : Except Fault σ :=
  events.foldlM step s

@[simp]
theorem run_nil (s : σ) : run step s [] = .ok s := rfl

@[simp]
theorem run_cons (s : σ) (e : ε) (events : List ε) :
    run step s (e :: events) = step s e >>= fun s' => run step s' events := rfl

theorem run_append (s : σ) (first second : List ε) :
    run step s (first ++ second) = run step s first >>= fun s' => run step s' second := by
  rw [run, List.foldlM_append]
  rfl

theorem run_concat (s : σ) (events : List ε) (e : ε) :
    run step s (events ++ [e]) = run step s events >>= fun s' => step s' e := by
  rw [run_append]
  congr 1
  funext s'
  cases h : step s' e <;> simp [h]

/-- A machine that follows a total one, event by event, whenever a condition on
the state before the event holds, follows it along every run all of whose steps
meet the condition. -/
theorem run_simulation {R : σ → τ → Prop} {Cond : σ → ε → Prop} {next : τ → ε → τ}
    (hstep : ∀ s t e, R s t → Cond s e → ∃ s', step s e = .ok s' ∧ R s' (next t e))
    {s : σ} {t : τ} (hs : R s t) (events : List ε)
    (hpath : ∀ pre e post s', events = pre ++ e :: post →
      run step s pre = .ok s' → R s' (pre.foldl next t) → Cond s' e) :
    ∃ s', run step s events = .ok s' ∧ R s' (events.foldl next t) := by
  induction events generalizing s t with
  | nil => exact ⟨s, rfl, hs⟩
  | cons e events ih =>
      obtain ⟨s₁, h₁, hR⟩ := hstep s t e hs (hpath [] e events s rfl rfl hs)
      have hrest : ∀ pre e' post s', events = pre ++ e' :: post →
          run step s₁ pre = .ok s' → R s' (pre.foldl next (next t e)) → Cond s' e' := by
        intro pre e' post s' heq hrun
        apply hpath (e :: pre) e' post s' (by rw [heq, List.cons_append])
        rw [run_cons, h₁, Fault.ok_bind, hrun]
      obtain ⟨s', hrun, hR'⟩ := ih hR hrest
      exact ⟨s', by rw [run_cons, h₁, Fault.ok_bind, hrun], hR'⟩

/-- An invariant that a step keeps whenever a condition on the state before it
and the event holds is kept by every run all of whose steps meet the condition. -/
theorem run_invariant {Inv : σ → Prop} {Cond : σ → ε → Prop}
    (hstep : ∀ s e, Inv s → Cond s e → ∃ s', step s e = .ok s' ∧ Inv s')
    {s : σ} (hs : Inv s) (events : List ε)
    (hpath : ∀ pre e post s', events = pre ++ e :: post →
      run step s pre = .ok s' → Inv s' → Cond s' e) :
    ∃ s', run step s events = .ok s' ∧ Inv s' :=
  @run_simulation _ _ Unit _ (fun s _ => Inv s) Cond (fun t _ => t) (fun s _ => hstep s) s () hs
    events hpath

/-- A machine whose steps follow a total one where they return follows it along every
run that returns. -/
theorem run_follows {R : σ → τ → Prop} {next : τ → ε → τ}
    (hstep : ∀ s t e s', R s t → step s e = .ok s' → R s' (next t e))
    {s s' : σ} {t : τ} (hs : R s t) {events : List ε} (hrun : run step s events = .ok s') :
    R s' (events.foldl next t) := by
  induction events generalizing s t with
  | nil => exact Except.ok.inj hrun ▸ hs
  | cons e events ih =>
      rw [run_cons] at hrun
      obtain ⟨s₁, hfirst, hrest⟩ := Fault.bind_eq_ok.mp hrun
      exact ih (hstep s t e s₁ hs hfirst) hrest

/-- Whatever the steps that return keep is kept by a run that returns. -/
theorem run_keeps {Inv : σ → Prop} (hstep : ∀ s e s', Inv s → step s e = .ok s' → Inv s')
    {s s' : σ} (hs : Inv s) {events : List ε} (hrun : run step s events = .ok s') : Inv s' :=
  @run_follows _ _ Unit _ (fun s _ => Inv s) (fun t _ => t) (fun s _ => hstep s) s s' () hs events
    hrun

/-- A rank of what the states stand for, that every step lowers until a goal is met:
among more events than the rank there is one before which the goal is met. -/
theorem run_reaches {R : σ → τ → Prop} {Goal : τ → Prop} {rank : τ → Nat}
    (hstep : ∀ s t e, R s t → ¬ Goal t →
      ∃ s' t', step s e = .ok s' ∧ R s' t' ∧ rank t' < rank t)
    {s : σ} {t : τ} (hs : R s t) {events : List ε} (hrank : rank t < events.length) :
    ∃ pre e post s' t', events = pre ++ e :: post ∧ run step s pre = .ok s' ∧ R s' t' ∧
      Goal t' := by
  induction events generalizing s t with
  | nil => exact absurd hrank (Nat.not_lt_zero _)
  | cons e events ih =>
      by_cases hgoal : Goal t
      · exact ⟨[], e, events, s, t, rfl, rfl, hs, hgoal⟩
      · obtain ⟨s₁, t₁, hfirst, hs₁, hlt⟩ := hstep s t e hs hgoal
        obtain ⟨pre, e', post, s', t', rfl, hrun, hs', hgoal'⟩ :=
          ih hs₁ (Nat.lt_of_lt_of_le hlt (Nat.le_of_lt_succ hrank))
        exact ⟨e :: pre, e', post, s', t', rfl, by rw [run_cons, hfirst, Fault.ok_bind, hrun],
          hs', hgoal'⟩

/-- What holds of every split of a list at an element holds of the split at the first
one, and of those behind it. -/
theorem forall_split_cons {e : ε} {events : List ε} {P : List ε → ε → Prop} :
    (∀ pre e' post, e :: events = pre ++ e' :: post → P pre e') ↔
      P [] e ∧ ∀ pre e' post, events = pre ++ e' :: post → P (e :: pre) e' := by
  apply Iff.intro
  · intro h
    exact ⟨h [] e events rfl, fun pre e' post heq => h (e :: pre) e' post (congrArg _ heq)⟩
  · rintro ⟨hfirst, hrest⟩ pre e' post heq
    cases pre with
    | nil =>
        obtain ⟨rfl, rfl⟩ := List.cons.inj heq
        exact hfirst
    | cons d pre =>
        obtain ⟨rfl, rfl⟩ := List.cons.inj heq
        exact hrest pre e' post rfl

/-- Every step of a run is good exactly when every step meets a condition, if one step
is good exactly when it meets the condition, in the states that good steps lead to. -/
theorem run_forall_iff {Inv : σ → Prop} {Good : σ → ε → σ → Prop} {Cond : σ → ε → Prop}
    (hstep : ∀ s e, Inv s → ((∃ s', step s e = .ok s' ∧ Good s e s') ↔ Cond s e))
    (hkeep : ∀ s e s', Inv s → step s e = .ok s' → Good s e s' → Inv s')
    {s : σ} (hs : Inv s) (events : List ε) :
    (∀ pre e post, events = pre ++ e :: post →
        ∃ s₁ s', run step s pre = .ok s₁ ∧ step s₁ e = .ok s' ∧ Good s₁ e s') ↔
      ∀ pre e post s₁, events = pre ++ e :: post → run step s pre = .ok s₁ → Cond s₁ e := by
  induction events generalizing s with
  | nil =>
      refine iff_of_true (fun pre e post heq => ?_) fun pre e post _ heq => ?_ <;>
        exact absurd heq.symm (List.append_ne_nil_of_right_ne_nil _ (List.cons_ne_nil _ _))
  | cons e events ih =>
      -- the state comes last on both sides, so that the split of the list can be cut off
      simp only [@forall_comm σ, exists_and_left] at ih ⊢
      rw [forall_split_cons, forall_split_cons]
      simp only [run_nil, run_cons, Except.ok.injEq, exists_eq_left', forall_eq', ← hstep s e hs]
      refine and_congr_right ?_
      rintro ⟨s', hfirst, hgood⟩
      simp only [hfirst, Fault.ok_bind]
      exact ih (hkeep s e s' hs hfirst hgood)

/-- A counted loop is a run over its indices, and its invariant may mention how
many rounds are done. -/
theorem run_range {step : σ → Nat → Except Fault σ} {Inv : Nat → σ → Prop} {n : Nat}
    (hstep : ∀ k s, k < n → Inv k s → ∃ s', step s k = .ok s' ∧ Inv (k + 1) s')
    {s : σ} (hs : Inv 0 s) : ∃ s', run step s (List.range n) = .ok s' ∧ Inv n s' := by
  induction n with
  | zero => exact ⟨s, rfl, hs⟩
  | succ n ih =>
      obtain ⟨s₁, hrun, hInv⟩ := ih fun k s' hk => hstep k s' (Nat.lt_succ_of_lt hk)
      obtain ⟨s', hlast, hInv'⟩ := hstep n s₁ (Nat.lt_succ_self n) hInv
      exact ⟨s', by rw [List.range_succ, run_concat, hrun, Fault.ok_bind, hlast], hInv'⟩

end RoutePlanner.Std.Machine
