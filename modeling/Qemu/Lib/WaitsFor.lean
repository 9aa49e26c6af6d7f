import Mathlib.Logic.Function.Basic
import Mathlib.Logic.Relation

/-! Graphs in which every node waits for at most one other node. -/

namespace WaitsFor

variable {α : Type*}

/-- A node waits for another one. -/
def Edge (next : α → Option α) (a b : α) : Prop := next a = some b

/-- No node waits for itself, through however many others. -/
def Acyclic (next : α → Option α) : Prop := ∀ a, ¬ Relation.TransGen (Edge next) a a

theorem acyclic_of_none {next : α → Option α} (none : ∀ a, next a = none) : Acyclic next := by
  intro a cycle
  -- Even a cycle's last step is an edge.
  obtain ⟨b, _, edge⟩ := Relation.TransGen.tail'_iff.mp cycle
  rw [Edge, none] at edge
  contradiction

theorem Acyclic.mono {next next' : α → Option α} (acyclic : Acyclic next)
    (fewer : ∀ a b, next' a = some b → next a = some b) : Acyclic next' := by
  intro a cycle
  exact acyclic a (Relation.TransGen.mono fewer a a cycle)

variable [DecidableEq α] {next : α → Option α} {a b : α}

/-- A new edge to a sink lets every old way be, or ends it there. -/
theorem transGen_update_sink (sink : next b = none) (other : a ≠ b) {x y}
    (way : Relation.TransGen (Edge (Function.update next a (some b))) x y) :
    Relation.TransGen (Edge next) x y ∨ y = b := by
  induction way with
  | @single y edge =>
    rw [Edge, Function.update_apply] at edge
    split at edge
    · exact .inr (Option.some.inj edge).symm
    · exact .inl (.single edge)
  | @tail z y _ edge ih =>
    rw [Edge, Function.update_apply] at edge
    split at edge
    · exact .inr (Option.some.inj edge).symm
    rcases ih with way | rfl
    · exact .inl (way.tail edge)
    · -- The node that was reached has no way on.
      rw [sink] at edge
      contradiction

theorem Acyclic.update_sink (acyclic : Acyclic next) (sink : next b = none) (other : a ≠ b) :
    Acyclic (Function.update next a (some b)) := by
  intro x cycle
  rcases transGen_update_sink sink other cycle with cycle | rfl
  · exact acyclic x cycle
  · -- The first step of a cycle at the new target would be an edge from it.
    obtain ⟨z, edge, _⟩ := Relation.TransGen.head'_iff.mp cycle
    rw [Edge, Function.update_apply, if_neg other.symm, sink] at edge
    contradiction

end WaitsFor
