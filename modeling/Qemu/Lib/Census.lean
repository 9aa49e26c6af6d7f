import Mathlib.Algebra.Order.BigOperators.Group.Finset
import Mathlib.Data.Fintype.BigOperators

/-! The total weight of agents that change one at a time. -/

namespace Census

open Finset Function

variable {ι β : Type*} [Fintype ι]

/-- The sum of the weights of the agents' states. -/
def census (weight : β → Nat) (states : ι → β) : Nat :=
  ∑ agent, weight (states agent)

variable (weight : β → Nat) (states : ι → β)

/-- A step of one agent changes the census by that agent's weight. -/
theorem census_update [DecidableEq ι] (agent : ι) (next : β) :
    census weight (update states agent next) + weight (states agent) =
        census weight states + weight next := by
  -- Both sums are the agent's own weight and the weight of the others.
  have others : ∀ other ∈ univ.erase agent,
      weight (update states agent next other) = weight (states other) := by
    intro other mem
    rw [update_of_ne (ne_of_mem_erase mem)]
  unfold census
  rw [← add_sum_erase _ _ (mem_univ agent), ← add_sum_erase _ _ (mem_univ agent),
    update_self, sum_congr rfl others]
  omega

variable {weight states}

theorem census_lt_card (atMostOne : ∀ state, weight state ≤ 1) {agent}
    (weightless : weight (states agent) = 0) : census weight states < Fintype.card ι := by
  have below : ∑ other, weight (states other) < ∑ _other : ι, 1 :=
    sum_lt_sum (fun other _ => atMostOne (states other)) ⟨agent, mem_univ agent, by omega⟩
  simpa [census] using below

theorem le_census (agent : ι) : weight (states agent) ≤ census weight states :=
  single_le_sum (f := fun other => weight (states other))
    (fun _ _ => Nat.zero_le _) (mem_univ agent)

theorem census_eq_zero (weightless : ∀ agent, weight (states agent) = 0) :
    census weight states = 0 :=
  sum_eq_zero fun agent _ => weightless agent

end Census
