import Mathlib

/-!
# Runs of a step function

A system is a partial step function `step : σ → ε → Option σ`: `step s e` is the state after event
`e`, and `none` when `e` cannot happen in `s`.  A run is a list of events.  `StepsOk ok s es` says
that every step of the run `es` from `s` meets the condition `ok`.
-/

namespace Runs

variable {σ ε : Type*}

/-- The state after the events `es`. -/
def run (step : σ → ε → Option σ) (s : σ) (es : List ε) : Option σ := es.foldlM step s

variable {step : σ → ε → Option σ}

@[simp] theorem run_nil (s : σ) : run step s [] = some s := rfl

theorem run_cons (s : σ) (e : ε) (es : List ε) :
    run step s (e :: es) = (step s e).bind fun t => run step t es := rfl

theorem run_append (s : σ) (es fs : List ε) :
    run step s (es ++ fs) = (run step s es).bind fun t => run step t fs := by
  simp [run, List.foldlM_append]

theorem run_concat (s : σ) (es : List ε) (e : ε) :
    run step s (es ++ [e]) = (run step s es).bind fun t => step t e := by
  rw [run_append]
  congr 1
  funext t
  simp [run]

theorem run_concat_eq_some {s u : σ} {es : List ε} {e : ε} (h : run step s (es ++ [e]) = some u) :
    ∃ t, run step s es = some t ∧ step t e = some u := by
  rw [run_concat, Option.bind_eq_some_iff] at h
  exact h

theorem run_append_eq_some {s u : σ} {es fs : List ε} (h : run step s (es ++ fs) = some u) :
    ∃ t, run step s es = some t ∧ run step t fs = some u := by
  rw [run_append, Option.bind_eq_some_iff] at h
  exact h

/-- Every step of the run meets `ok`, a condition on the state before the step and the event. -/
def StepsOk (step : σ → ε → Option σ) (ok : σ → ε → Prop) : σ → List ε → Prop
  | _, [] => True
  | s, e :: es => ok s e ∧ ∀ t, step s e = some t → StepsOk step ok t es

instance StepsOk.decidable {ok : σ → ε → Prop} [∀ s e, Decidable (ok s e)] :
    ∀ (s : σ) (es : List ε), Decidable (StepsOk step ok s es)
  | _, [] => isTrue trivial
  | s, e :: es =>
    match h : step s e with
    | none => decidable_of_iff (ok s e) (by simp [StepsOk, h])
    | some t =>
      have : Decidable (StepsOk step ok t es) := StepsOk.decidable t es
      decidable_of_iff (ok s e ∧ StepsOk step ok t es) (by simp [StepsOk, h])

/-- An invariant kept by every step that meets the condition holds after every run whose steps
meet it. -/
theorem run_invariant {ok : σ → ε → Prop} {Inv : σ → Prop}
    (hstep : ∀ s e t, Inv s → ok s e → step s e = some t → Inv t) {s t : σ} {es : List ε}
    (h₀ : Inv s) (hok : StepsOk step ok s es) (hrun : run step s es = some t) : Inv t := by
  induction es generalizing s with
  | nil => exact Option.some.inj hrun ▸ h₀
  | cons e es ih =>
    rw [run_cons, Option.bind_eq_some_iff] at hrun
    obtain ⟨u, hu, hrun⟩ := hrun
    exact ih (hstep s e u h₀ hok.1 hu) (hok.2 u hu) hrun

/-- An invariant kept by every step holds after every run. -/
theorem run_induction {Inv : σ → Prop} (hstep : ∀ s e t, Inv s → step s e = some t → Inv t)
    {s t : σ} {es : List ε} (h₀ : Inv s) (hrun : run step s es = some t) : Inv t := by
  induction es generalizing s with
  | nil => exact Option.some.inj hrun ▸ h₀
  | cons e es ih =>
    rw [run_cons, Option.bind_eq_some_iff] at hrun
    obtain ⟨u, hu, hrun⟩ := hrun
    exact ih (hstep s e u h₀ hu) hrun

/-- If every step of a system is matched by one of a second system, with the same event, so is every run. -/
theorem run_simulation {τ : Type*} {step' : τ → ε → Option τ} {R : σ → τ → Prop}
    (hstep : ∀ s t e s', R s t → step s e = some s' → ∃ t', step' t e = some t' ∧ R s' t')
    {s s' : σ} {t : τ} {es : List ε} (h₀ : R s t) (hrun : run step s es = some s') :
    ∃ t', run step' t es = some t' ∧ R s' t' := by
  induction es generalizing s t with
  | nil => exact ⟨t, rfl, Option.some.inj hrun ▸ h₀⟩
  | cons e es ih =>
    rw [run_cons, Option.bind_eq_some_iff] at hrun
    obtain ⟨u, hu, hrun⟩ := hrun
    obtain ⟨v, hv, hR⟩ := hstep s t e u h₀ hu
    obtain ⟨t', ht', hR'⟩ := ih hR hrun
    refine ⟨t', ?_, hR'⟩
    rw [run_cons, hv]
    exact ht'

end Runs
