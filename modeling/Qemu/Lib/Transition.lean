import Mathlib.Data.List.Basic

/-! Runs of a machine whose steps are partial functions of the state and a label. -/

namespace Transition

variable {σ α : Type*} (step : σ → α → Option σ) {Inv : σ → Prop} {labels : List α}

/-- The state after a list of labels, if every step is possible. -/
def run (state : σ) : List α → Option σ
  | [] => some state
  | label :: rest => (step state label).bind fun next => run next rest

variable {step}

theorem run_cons {state final label rest} : run step state (label :: rest) = some final ↔
      ∃ next, step state label = some next ∧ run step next rest = some final := by
  rw [run, Option.bind_eq_some_iff]

theorem run_append {state middle final first second} (ran : run step state first = some middle)
    (onwards : run step middle second = some final) :
    run step state (first ++ second) = some final := by
  induction first generalizing state with
  | nil =>
    cases ran
    exact onwards
  | cons label rest ih =>
    obtain ⟨next, stepped, ran⟩ := run_cons.mp ran
    exact run_cons.mpr ⟨next, stepped, ih ran⟩

/-- What each step preserves, every run preserves. -/
theorem run_preserves (preserved : ∀ state label next, Inv state →
    step state label = some next → Inv next)
    {state final} (start : Inv state) (ran : run step state labels = some final) : Inv final := by
  induction labels generalizing state with
  | nil =>
    -- Nothing was done.
    cases ran
    exact start
  | cons label rest ih =>
    obtain ⟨next, stepped, ran⟩ := run_cons.mp ran
    exact ih (preserved state label next start stepped) ran

variable (step)

/-- Every label meets a condition in the state before its step. -/
def Along (meets : σ → α → Prop) (state : σ) : List α → Prop
  | [] => True
  | label :: rest => meets state label ∧
      ∀ next, step state label = some next → Along meets next rest

variable {step}

theorem run_preserves_along {meets}
    (preserved : ∀ state label next, Inv state → meets state label →
      step state label = some next → Inv next)
    {state final} (start : Inv state) (along : Along step meets state labels)
    (ran : run step state labels = some final) : Inv final := by
  induction labels generalizing state with
  | nil =>
    cases ran
    exact start
  | cons label rest ih =>
    obtain ⟨next, stepped, ran⟩ := run_cons.mp ran
    exact ih (preserved state label next start along.1 stepped) (along.2 next stepped) ran

theorem run_total_along {meets}
    (possible : ∀ state label, Inv state → meets state label →
      ∃ next, step state label = some next ∧ Inv next)
    {state} (start : Inv state) (along : Along step meets state labels) :
    ∃ final, run step state labels = some final ∧ Inv final := by
  induction labels generalizing state with
  | nil => exact ⟨state, rfl, start⟩
  | cons label rest ih =>
    obtain ⟨next, stepped, held⟩ := possible state label start along.1
    obtain ⟨final, ran, kept⟩ := ih held (along.2 next stepped)
    exact ⟨final, run_cons.mpr ⟨next, stepped, ran⟩, kept⟩

end Transition
