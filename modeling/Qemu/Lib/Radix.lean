import Mathlib.Tactic.Ring

/-! Digits in a base, and blocks of numbers that share the upper ones. -/

namespace Radix

/-- One digit of a number, counted from the lowest. -/
def digit (base position number : Nat) : Nat := number / base ^ position % base

variable {base position : Nat}

theorem digit_lt (pos : 0 < base) (num) : digit base position num < base :=
  Nat.mod_lt _ pos

theorem digit_of_block {block num} (lower : block * base ^ position ≤ num)
    (upper : num < (block + 1) * base ^ position) : digit base position num = block % base := by
  have quotient : num / base ^ position = block :=
    Nat.div_eq_of_lt_le lower upper
  rw [digit, quotient]

theorem block_bounds (pos : 0 < base) (num) : num / base ^ position * base ^ position ≤ num ∧
      num < (num / base ^ position + 1) * base ^ position := by
  have size : 0 < base ^ position := Nat.pow_pos pos
  constructor
  · exact Nat.div_mul_le_self _ _
  · have := Nat.lt_div_mul_add size (a := num)
    rw [Nat.add_mul, Nat.one_mul]
    exact this

end Radix
