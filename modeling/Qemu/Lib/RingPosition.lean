import Mathlib.Data.Nat.ModEq

/-! Positions in a ring with a counter that flips at every lap. -/

namespace RingPosition

open Nat

/-- A slot of a ring, and whether the lap is an odd one. -/
structure Slot where
  idx : Nat
  wrap : Bool
deriving DecidableEq

variable {num : Nat} {slot : Slot}

/-- The slot after another one. -/
def next (num : Nat) (slot : Slot) : Slot :=
  if slot.idx + 1 ≥ num then ⟨0, !slot.wrap⟩ else ⟨slot.idx + 1, slot.wrap⟩

/-- The slot a number of slots further on. -/
def advance (num count : Nat) (slot : Slot) : Slot := (next num)^[count] slot

def order (num : Nat) (slot : Slot) : Nat := slot.idx + if slot.wrap then num else 0

theorem advance_zero : advance num 0 slot = slot := rfl

theorem advance_add (first second) : advance num (first + second) slot = advance num second
    (advance num first slot) := by
  rw [advance, add_comm, Function.iterate_add_apply]
  rfl

section

variable (inside : slot.idx < num)

include inside

theorem advance_lt (count) : (advance num count slot).idx < num := by
  induction count with
  | zero => exact inside
  | succ count ih =>
    rw [advance_add]
    show (next num _).idx < num
    rw [next]
    split
    · exact lt_of_le_of_lt (zero_le _) inside
    · exact Nat.lt_of_not_le ‹_›

/-- A place on the ring of `2 * num` names one index and wrap bit. -/
theorem order_injective {slot'} (inside' : slot'.idx < num)
    (same : order num slot = order num slot') : slot = slot' := by
  obtain ⟨idx, wrap⟩ := slot
  obtain ⟨idx', wrap'⟩ := slot'
  simp only [order] at same
  simp only at inside inside'
  -- Positions of different laps are at least the size of the ring apart.
  have parts : idx = idx' ∧ wrap = wrap' := by
    cases wrap <;> cases wrap' <;> simp only [Bool.false_eq_true, if_true, if_false] at same
      <;> simp <;> omega
  rw [parts.1, parts.2]

theorem order_next : order num (next num slot) = (order num slot + 1) % (2 * num) := by
  obtain ⟨idx, wrap⟩ := slot
  simp only at inside
  simp only [next, order]
  -- At the end of the ring the counter flips, and after two laps everything starts again.
  by_cases last : idx + 1 = num
  · cases wrap
    · simp only [ge_iff_le, last, Nat.le_refl, if_true, Bool.not_false,
        Bool.false_eq_true, if_false]
      rw [mod_eq_of_lt (by omega)]
      omega
    · simp only [ge_iff_le, last, Nat.le_refl, if_true, Bool.not_true, Bool.false_eq_true, if_false]
      rw [show idx + num + 1 = 2 * num by omega, mod_self]
  rw [if_neg (by omega)]
  cases wrap
  · simp only [Bool.false_eq_true, if_false]
    rw [mod_eq_of_lt (by omega)]
  · simp only [if_true]
    rw [mod_eq_of_lt (by omega)]
    omega

theorem order_lt : order num slot < 2 * num := by
  rw [order]
  split <;> omega

theorem order_advance (count) : order num (advance num count slot) =
    (order num slot + count) % (2 * num) := by
  induction count with
  | zero => rw [advance_zero, add_zero, mod_eq_of_lt (order_lt inside)]
  | succ count ih =>
    rw [advance_add]
    show order num (next num (advance num count slot)) = _
    rw [order_next (advance_lt inside count), ih, mod_add_mod, add_assoc]

theorem advance_injective {slot'} (inside' : slot'.idx < num) {count}
    (same : advance num count slot = advance num count slot') : slot = slot' := by
  have orders := congrArg (order num) same
  rw [order_advance inside, order_advance inside'] at orders
  refine order_injective inside inside' ?_
  have cancelled : order num slot % (2 * num) = order num slot' % (2 * num) :=
    Nat.ModEq.add_right_cancel' count orders
  rwa [mod_eq_of_lt (order_lt inside), mod_eq_of_lt (order_lt inside')] at cancelled

/-- Positions come back after two rounds and not before. -/
theorem advance_eq_iff (first second) :
    advance num first slot = advance num second slot ↔ first % (2 * num) = second % (2 * num) := by
  constructor
  · intro same
    have orders := congrArg (order num) same
    rw [order_advance inside, order_advance inside] at orders
    exact Nat.ModEq.add_left_cancel' (order num slot) orders
  · intro same
    refine order_injective (advance_lt inside first) (advance_lt inside second) ?_
    rw [order_advance inside, order_advance inside]
    exact Nat.ModEq.add_left (order num slot) same

end

/-- One conditional subtraction advances by up to a round. -/
theorem advance_of_le {idx count wrap} (inside : idx < num) (le : count ≤ num) :
    advance num count ⟨idx, wrap⟩ = if idx + count ≥ num then ⟨idx + count - num, !wrap⟩ else
    ⟨idx + count, wrap⟩ := by
  have inside' : (if idx + count ≥ num then ⟨idx + count - num, !wrap⟩
      else ⟨idx + count, wrap⟩ : Slot).idx < num := by
    split
    · show idx + count - num < num
      omega
    · show idx + count < num
      omega
  -- Both sides have the same place among the `2 * num`.
  refine order_injective (@advance_lt num ⟨idx, wrap⟩ inside count) inside' ?_
  rw [@order_advance num ⟨idx, wrap⟩ inside]
  split
  · cases wrap
    · simp only [order, Bool.false_eq_true, if_false, Bool.not_false, if_true]
      rw [mod_eq_of_lt (by omega)]
      omega
    · simp only [order, if_true, Bool.not_true, Bool.false_eq_true, if_false]
      rw [show idx + num + count = (idx + count - num) +
        2 * num by omega, add_mod_right, mod_eq_of_lt (by omega)]
      omega
  cases wrap
  · simp only [order, Bool.false_eq_true, if_false]
    rw [mod_eq_of_lt (by omega)]
    omega
  · simp only [order, if_true]
    rw [mod_eq_of_lt (by omega)]
    omega

end RingPosition
