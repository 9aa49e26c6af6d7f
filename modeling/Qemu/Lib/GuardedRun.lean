import Mathlib.Data.List.Basic

/-! Runs of a deterministic machine with guarded steps. -/

namespace GuardedRun

variable {σ ε : Type*} (apply : σ → ε → σ) (guard : σ → ε → Prop)

/-- The state after a list of events. -/
def runFrom (state : σ) (events : List ε) : σ := events.foldl apply state

/-- Every event meets its guard in the state that it arrives in. -/
def Guarded : σ → List ε → Prop
  | _, [] => True
  | state, event :: rest => guard state event ∧ Guarded (apply state event) rest

/-- Guards that can be checked can be checked along a run. -/
instance guardedDecidable [∀ state event, Decidable (guard state event)] :
    ∀ state events, Decidable (Guarded apply guard state events)
  | _, [] => .isTrue trivial
  | state, event :: rest =>
    let _ := guardedDecidable (apply state event) rest
    inferInstanceAs (Decidable (guard state event ∧ Guarded apply guard (apply state event) rest))

variable {apply guard}

@[simp] theorem runFrom_nil (state : σ) : runFrom apply state [] = state := rfl

@[simp] theorem runFrom_cons (state : σ) (event : ε) (rest : List ε) :
    runFrom apply state (event :: rest) = runFrom apply (apply state event) rest := rfl

theorem runFrom_append (state : σ) (events later : List ε) :
    runFrom apply state (events ++ later) = runFrom apply (runFrom apply state events) later :=
  List.foldl_append

theorem guarded_append {state events later} : Guarded apply guard state (events ++ later) ↔
      Guarded apply guard state events ∧
          Guarded apply guard (runFrom apply state events) later := by
  induction events generalizing state with
  | nil => simp [Guarded]
  | cons event rest ih => simp only [List.cons_append, Guarded, ih, runFrom_cons, and_assoc]

end GuardedRun
