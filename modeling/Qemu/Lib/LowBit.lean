import Mathlib.Data.BitVec

/-! The lowest bit that is set in a word. -/

namespace LowBit

open BitVec

variable {w : Nat}

theorem getLsbD_and_neg (x : BitVec w) (i) :
    (x &&& -x).getLsbD i = (x.getLsbD i && !decide (∃ j < i, x.getLsbD j)) := by
  rw [getLsbD_and, getLsbD_neg]
  by_cases within : i < w
  · cases x.getLsbD i <;> simp [within]
  · simp [getLsbD_of_ge x i (Nat.le_of_not_lt within)]

/-- `x & -x` is the lowest set bit. -/
theorem and_neg_eq_twoPow {x k} (isSet : x.getLsbD k)
    (below : ∀ j < k, x.getLsbD j = false) : x &&& -x = twoPow w k := by
  apply eq_of_getLsbD_eq
  intro i within
  rw [getLsbD_and_neg, getLsbD_twoPow]
  rcases Nat.lt_trichotomy i k with before | here | after
  · simp [below i before, ne_of_gt before]
  · subst here
    have none : ¬ ∃ j < i, x.getLsbD j := by
      rintro ⟨j, earlier, bit⟩
      rw [below j earlier] at bit
      cases bit
    simp [isSet, none, within]
  · have earlier : ∃ j < i, x.getLsbD j := ⟨k, after, isSet⟩
    simp [earlier, ne_of_lt after]

/-- A word that is no multiple of `2 ^ n` has its lowest bit below `n`. -/
theorem exists_lowest {x : BitVec w} {n : Nat} (notMultiple : x.toNat % 2 ^ n ≠ 0) :
    ∃ k < n, x.getLsbD k ∧ ∀ j < k, x.getLsbD j = false := by
  have some : ∃ k, k < n ∧ x.getLsbD k := by
    by_contra none
    apply notMultiple
    apply Nat.eq_of_testBit_eq
    intro i
    rw [Nat.testBit_mod_two_pow, Nat.zero_testBit, testBit_toNat]
    by_cases below : i < n
    · simp only [below, decide_true, Bool.true_and]
      exact Bool.eq_false_of_not_eq_true fun bit => none ⟨i, below, bit⟩
    · simp [below]
  classical
  obtain ⟨below, bit⟩ := Nat.find_spec some
  refine ⟨Nat.find some, below, bit, fun j earlier => ?_⟩
  have notFirst := Nat.find_min some earlier
  exact Bool.eq_false_of_not_eq_true fun isSet => notFirst ⟨lt_trans earlier below, isSet⟩

/-- The lowest set bit of a multiple of `2 ^ n` is one too. -/
theorem and_neg_mod {x : BitVec w} {n : Nat} (multiple : x.toNat % 2 ^ n = 0) :
    (x &&& -x).toNat % 2 ^ n = 0 := by
  apply Nat.eq_of_testBit_eq
  intro i
  rw [Nat.testBit_mod_two_pow, Nat.zero_testBit, testBit_toNat, getLsbD_and_neg]
  by_cases below : i < n
  · have bit := congrArg (fun num => num.testBit i) multiple
    simp only [Nat.testBit_mod_two_pow, below, decide_true, Bool.true_and,
      testBit_toNat, Nat.zero_testBit] at bit
    simp [bit]
  · simp [below]

end LowBit
