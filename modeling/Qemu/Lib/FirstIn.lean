import Mathlib.Data.Nat.Basic

/-! The first position of a range with a property, and how a search over blocks finds it. -/

namespace FirstIn

/-- The answer of a search: the least position with the property, or -1. -/
def Finds (good : Nat → Prop) (start stop : Nat) (answer : Int) : Prop :=
  (∃ place : Nat, answer = place ∧ start ≤ place ∧ place < stop ∧ good place ∧
    ∀ earlier, start ≤ earlier → earlier < place → ¬ good earlier) ∨
  (answer = -1 ∧ ∀ place, start ≤ place → place < stop → ¬ good place)

variable {good good' : Nat → Prop} {start stop : Nat} {answer : Int}
    {block : Nat → Prop} {width : Nat}

/-- A search depends on the predicate inside its range only. -/
theorem Finds.congr (same : ∀ place, start ≤ place → place < stop → (good place ↔ good' place))
    (finds : Finds good start stop answer) : Finds good' start stop answer := by
  rcases finds with ⟨place, is, lower, upper, here, least⟩ | ⟨is, none⟩
  · refine .inl ⟨place, is, lower, upper, (same place lower upper).mp here,
      fun earlier after before => ?_⟩
    rw [← same earlier after (by omega)]
    exact least earlier after before
  · refine .inr ⟨is, fun place lower upper => ?_⟩
    rw [← same place lower upper]
    exact none place lower upper

/-- Finding the first block finds the first place of a block. -/
theorem finds_of_block {first} (pos : 0 < width) (order : start < stop)
    (after : start / width ≤ first)
    (here : block first) (least : ∀ earlier, start / width ≤ earlier →
      earlier < first → ¬ block earlier) (inside : first * width < stop) :
    Finds (fun place => block (place / width)) start stop (max start (first * width) : Nat) := by
  have inBlock : max start (first * width) / width = first := by
    rcases lt_or_ge start (first * width) with before | reached
    · rw [Nat.max_eq_right (le_of_lt before), Nat.mul_div_cancel _ pos]
    · rw [Nat.max_eq_left reached]
      exact le_antisymm after ((Nat.le_div_iff_mul_le pos).mpr reached)
  refine .inl ⟨_, rfl, Nat.le_max_left _ _, Nat.max_lt.mpr ⟨order, inside⟩, ?_,
    fun earlier lower upper => ?_⟩
  · simpa only [inBlock] using here
  · -- A position before the answer is at or after the start, so it lies in an earlier block.
    refine least _ (Nat.div_le_div_right lower) ?_
    rw [Nat.div_lt_iff_lt_mul pos]
    omega

theorem finds_none_of_blocks (none : ∀ place, start / width ≤ place →
    place * width < stop → ¬ block place) :
    Finds (fun place => block (place / width)) start stop (-1) := by
  refine .inr ⟨rfl, fun place lower upper => none _ (Nat.div_le_div_right lower) ?_⟩
  have := Nat.div_mul_le_self place width
  omega

end FirstIn
