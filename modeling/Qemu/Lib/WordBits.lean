import Mathlib.Data.Finset.Card
import Mathlib.Data.Nat.Bitwise

/-! Machine words as sets of bits: arithmetic tricks bit by bit. -/

namespace WordBits

open BitVec Nat Finset

variable {w : Nat}

/-- The positions of a range, by shifts and one subtraction. -/
def rangeMask (w first last : Nat) : BitVec w := (2#w <<< last) - (1#w <<< first)

/-- The word of all positions below one. -/
def lowMask (w bit : Nat) : BitVec w := (1#w <<< bit) - 1#w

/-- A word without its lowest position. -/
def clearLowest (word : BitVec w) : BitVec w := word &&& (word - 1#w)

def positions (word : BitVec w) : Finset Nat := (range w).filter fun i => word.getLsbD i

theorem toNat_one_shiftLeft {bit} (fits : bit < w) : (1#w <<< bit).toNat = 2 ^ bit := by
  have one : 1 < 2 ^ w := Nat.one_lt_two_pow (by omega)
  rw [toNat_shiftLeft, toNat_ofNat, mod_eq_of_lt one, Nat.shiftLeft_eq, Nat.one_mul]
  exact mod_eq_of_lt (Nat.pow_lt_pow_right (by decide) fits)

theorem getLsbD_one_shiftLeft {bit} (fits : bit < w) (i : Nat) :
    (1#w <<< bit).getLsbD i = decide (bit = i) := by
  rw [getLsbD, toNat_one_shiftLeft fits, testBit_two_pow]

theorem testBit_pow_sub_pow {first stop} (order : first ≤ stop) (i : Nat) :
    (2 ^ stop - 2 ^ first).testBit i = decide (first ≤ i ∧ i < stop) := by
  have factored : 2 ^ stop - 2 ^ first = 2 ^ first * (2 ^ (stop - first) - 1) := by
    rw [Nat.mul_sub, Nat.mul_one, ← Nat.pow_add, Nat.add_sub_cancel' order]
  rw [factored, testBit_two_pow_mul, testBit_two_pow_sub_one]
  by_cases reached : first ≤ i
  · simp only [reached, decide_true, Bool.true_and, true_and]
    exact decide_eq_decide.mpr (by omega)
  · simp [reached]

theorem getLsbD_rangeMask {first last} (order : first ≤ last) (fits : last < w) (i : Nat) :
    (rangeMask w first last).getLsbD i = decide (first ≤ i ∧ i ≤ last) := by
  have low := toNat_one_shiftLeft (lt_of_le_of_lt order fits)
  have smaller : 2 ^ first ≤ 2 ^ (last + 1) := Nat.pow_le_pow_right (by decide) (by omega)
  have bounded : 2 ^ (last + 1) ≤ 2 ^ w := Nat.pow_le_pow_right (by decide) fits
  have pos := Nat.two_pow_pos first
  -- The left shift may wrap to zero; the subtraction then wraps as well.
  have high : (2#w <<< last).toNat = 2 ^ (last + 1) % 2 ^ w := by
    rw [toNat_shiftLeft, toNat_ofNat, Nat.shiftLeft_eq, mod_mul_mod, pow_succ, mul_comm]
  have value : (rangeMask w first last).toNat = 2 ^ (last + 1) - 2 ^ first := by
    rw [rangeMask, toNat_sub, high, low]
    rcases lt_or_ge (2 ^ (last + 1)) (2 ^ w) with below | atEnd
    · rw [mod_eq_of_lt below]
      have split : 2 ^ w - 2 ^ first + 2 ^ (last + 1) =
        2 ^ (last + 1) - 2 ^ first + 2 ^ w := by omega
      rw [split, add_mod_right, mod_eq_of_lt (by omega)]
    · have same : 2 ^ (last + 1) = 2 ^ w := le_antisymm bounded atEnd
      rw [same, mod_self, add_zero, mod_eq_of_lt (by omega)]
  rw [getLsbD, value, testBit_pow_sub_pow (by omega)]
  exact decide_eq_decide.mpr (by omega)

theorem getLsbD_lowMask {bit} (fits : bit < w) (i : Nat) :
    (lowMask w bit).getLsbD i = decide (i < bit) := by
  have one : 1 < 2 ^ w := Nat.one_lt_two_pow (by omega)
  have shifted := toNat_one_shiftLeft fits
  have pos := Nat.two_pow_pos bit
  have value : (lowMask w bit).toNat = 2 ^ bit - 1 := by
    rw [lowMask, toNat_sub, shifted, toNat_ofNat, mod_eq_of_lt one]
    have split : 2 ^ w - 1 + 2 ^ bit = 2 ^ bit - 1 + 2 ^ w := by omega
    rw [split, add_mod_right, mod_eq_of_lt (by omega)]
  rw [getLsbD, value, testBit_two_pow_sub_one]

theorem or_pow_sub_one (n bits : Nat) :
    (n ||| (2 ^ bits - 1)) = 2 ^ bits * (n / 2 ^ bits) + (2 ^ bits - 1) := by
  have pos := Nat.two_pow_pos bits
  apply eq_of_testBit_eq
  intro i
  rw [testBit_or, testBit_two_pow_mul_add _ (by omega),
    testBit_two_pow_sub_one, testBit_div_two_pow]
  by_cases low : i < bits
  · simp [low]
  · rw [if_neg low, Nat.sub_add_cancel (Nat.le_of_not_lt low)]
    simp [low]

variable (word : BitVec w)

theorem eq_zero_iff : word = 0#w ↔ ∀ i < w, word.getLsbD i = false := by
  constructor
  · rintro rfl i _
    exact getLsbD_zero
  · intro none
    exact eq_of_getLsbD_eq fun i within => by rw [none i within, getLsbD_zero]

theorem ne_zero_iff : word ≠ 0#w ↔ ∃ i < w, word.getLsbD i := by
  rw [Ne, eq_zero_iff]
  simp

variable {word : BitVec w}

theorem ctz_lt (nonzero : word ≠ 0#w) : word.ctz.toNat < w := by
  have here := getLsbD_true_ctz_of_ne_zero nonzero
  by_contra beyond
  rw [getLsbD_of_ge _ _ (Nat.le_of_not_lt beyond)] at here
  contradiction

theorem ctz_le {i} (here : word.getLsbD i) : word.ctz.toNat ≤ i := by
  by_contra below
  rw [getLsbD_false_of_lt_ctz (Nat.lt_of_not_le below)] at here
  contradiction

theorem split_lowest {n bit} (here : n.testBit bit) (none : ∀ i < bit, n.testBit i = false) :
    n = 2 ^ (bit + 1) * (n / 2 ^ (bit + 1)) + 2 ^ bit := by
  have low : n % 2 ^ (bit + 1) = 2 ^ bit := by
    apply eq_of_testBit_eq
    intro i
    rw [testBit_mod_two_pow, testBit_two_pow]
    rcases Nat.lt_trichotomy i bit with below | same | above
    · rw [none i below]
      simp [show bit ≠ i by omega]
    · subst same
      simp [here]
    · simp [show ¬ i < bit + 1 by omega, show bit ≠ i by omega]
  have := div_add_mod n (2 ^ (bit + 1))
  omega

/-- `x & (x - 1)` clears the lowest set bit only. -/
theorem getLsbD_clearLowest (nonzero : word ≠ 0#w) (i : Nat) :
    (clearLowest word).getLsbD i = (word.getLsbD i && decide (i ≠ word.ctz.toNat)) := by
  set bit := word.ctz.toNat with bit_eq
  have within : bit < w := ctz_lt nonzero
  have split := split_lowest (getLsbD_true_ctz_of_ne_zero nonzero)
    (fun i below => getLsbD_false_of_lt_ctz below)
  rw [← bit_eq] at split
  have smaller : 2 ^ bit < 2 ^ (bit + 1) := Nat.pow_lt_pow_right (by decide) (by omega)
  have one : 1 < 2 ^ w := Nat.one_lt_two_pow (by omega)
  have less : (word - 1#w).toNat = 2 ^ (bit + 1) * (word.toNat / 2 ^ (bit + 1)) +
      (2 ^ bit - 1) := by
    rw [toNat_sub, toNat_ofNat, mod_eq_of_lt one]
    have wrap : 2 ^ w - 1 + word.toNat = word.toNat - 1 + 2 ^ w := by omega
    rw [wrap, add_mod_right, mod_eq_of_lt (by omega)]
    omega
  rw [clearLowest, getLsbD_and]
  have here : word.getLsbD i = (2 ^ (bit + 1) * (word.toNat / 2 ^ (bit + 1)) + 2 ^ bit).testBit
      i := by
    rw [getLsbD, ← split]
  have there : (word - 1#w).getLsbD i =
      (2 ^ (bit + 1) * (word.toNat / 2 ^ (bit + 1)) + (2 ^ bit - 1)).testBit i := by
    rw [getLsbD, less]
  rw [here, there, testBit_two_pow_mul_add _ smaller, testBit_two_pow_mul_add _ (by omega),
    testBit_two_pow, testBit_two_pow_sub_one]
  -- Below the lowest position both are empty, above it both are the word.
  by_cases low : i < bit + 1
  · rw [if_pos low, if_pos low]
    by_cases same : bit = i
    · simp [same]
    · simp [same]
  · rw [if_neg low, if_neg low, Bool.and_self]
    simp [show i ≠ bit by omega]

/-- The population count is the number of set positions. -/
theorem toNat_cpop_eq_card : word.cpop.toNat = (positions word).card := by
  have counted : ∀ n, word.cpopNatRec n 0 = ((range n).filter fun i => word.getLsbD i).card := by
    intro n
    induction n with
    | zero => rfl
    | succ n ih =>
      rw [cpopNatRec_succ, cpopNatRec_eq, ih, range_add_one, filter_insert]
      cases here : word.getLsbD n with
      | false => simp
      | true =>
        rw [if_pos rfl, card_insert_of_notMem (by simp)]
        simp
  rw [toNat_cpop, counted, positions]

end WordBits
