import Qemu.Lib.WordBits

/-! Rounding words to a power of two with masks. -/

namespace Align

open WordBits Nat

variable {w : Nat}

/-- Rounding a number down to a multiple. -/
def floorTo (align n : Nat) : Nat := n / align * align

/-- Rounding a number up to a multiple. -/
def ceilTo (align n : Nat) : Nat := floorTo align (n + align - 1)

theorem floorTo_le (align n) : floorTo align n ≤ n := div_mul_le_self n align

theorem floorTo_add_mul {align rest} (count) (lt : rest < align) :
    floorTo align (rest + align * count) = align * count := by
  rw [floorTo, add_mul_div_left _ _ (zero_lt_of_lt lt), div_eq_of_lt lt, zero_add, Nat.mul_comm]

theorem lt_floorTo_add {align} (pos : 0 < align) (n) : n < floorTo align n + align :=
  lt_div_mul_add pos

theorem le_ceilTo {align} (pos : 0 < align) (n) : n ≤ ceilTo align n := by
  have := lt_floorTo_add pos (n + align - 1)
  rw [ceilTo]
  omega

theorem ceilTo_le {align n bound} (pos : 0 < align) (multiple : align ∣ bound) (le : n ≤ bound) :
    ceilTo align n ≤ bound := by
  obtain ⟨count, rfl⟩ := multiple
  have quotient : (n + align - 1) / align < count + 1 := by
    rw [div_lt_iff_lt_mul pos]
    rw [Nat.succ_mul, Nat.mul_comm]
    omega
  calc (n + align - 1) / align * align ≤ count * align :=
    mul_le_mul_right _ (le_of_lt_succ quotient)
    _ = align * count := Nat.mul_comm _ _

/-- Masking with a multiple of a unit rounds down to the unit. -/
theorem and_not_sub_one_bounds {size bits} (wide : 0 < w) (pos : 0 < size.toNat)
    (multiple : 2 ^ bits ∣ size.toNat) (word : BitVec w) :
    2 ^ bits ∣ (word &&& ~~~(size - 1#w)).toNat ∧ (word &&& ~~~(size - 1#w)).toNat ≤ word.toNat ∧
      word.toNat < (word &&& ~~~(size - 1#w)).toNat + size.toNat := by
  have mask : (size - 1#w).toNat = size.toNat - 1 := by
    have one : (1#w).toNat = 1 := mod_eq_of_lt (Nat.one_lt_two_pow (by omega))
    rw [BitVec.toNat_sub_of_le (by rw [BitVec.le_def, one]; exact pos), one]
  have apart : (word &&& ~~~(size - 1#w)) &&& (word &&& (size - 1#w)) = 0#w := by
    ext i
    simp
    tauto
  have whole : (word &&& ~~~(size - 1#w)) + (word &&& (size - 1#w)) = word := by
    rw [BitVec.add_eq_or_of_and_eq_zero _ _ apart]
    ext i
    simp [← Bool.and_or_distrib_left]
  have sum := congrArg BitVec.toNat whole
  rw [BitVec.toNat_add_of_and_eq_zero apart] at sum
  have small : (word &&& (size - 1#w)).toNat ≤ (size - 1#w).toNat :=
    BitVec.toNat_and .. ▸ and_le_right
  -- The low bits of the mask are all set.
  have low : (word &&& (size - 1#w)).toNat % 2 ^ bits = word.toNat % 2 ^ bits := by
    obtain ⟨count, eq⟩ := multiple
    obtain ⟨count, rfl⟩ := exists_eq_succ_of_ne_zero (show count ≠ 0 by rintro rfl; omega)
    have unit := Nat.two_pow_pos bits
    rw [BitVec.toNat_and, and_mod_two_pow, mask, eq, mul_succ, Nat.add_sub_assoc unit, mul_add_mod,
      mod_eq_of_lt (sub_lt unit Nat.one_pos), and_two_pow_sub_one_eq_mod, mod_mod]
  refine ⟨?_, by omega, by omega⟩
  rw [show (word &&& ~~~(size - 1#w)).toNat = word.toNat - (word &&& (size - 1#w)).toNat by omega]
  exact dvd_of_mod_eq_zero (sub_mod_eq_zero_of_mod_eq low.symm)

theorem toNat_and_not_sub_one (word : BitVec w) {bits} (fits : bits < w) :
    (word &&& ~~~((1#w <<< bits) - 1#w)).toNat = floorTo (2 ^ bits) word.toNat := by
  have unit : (1#w <<< bits).toNat = 2 ^ bits := toNat_one_shiftLeft fits
  obtain ⟨⟨count, eq⟩, below, above⟩ := and_not_sub_one_bounds (zero_lt_of_lt fits)
    (unit ▸ Nat.two_pow_pos bits) (dvd_of_eq unit.symm) word
  have rest := floorTo_add_mul count (show word.toNat - 2 ^ bits * count < 2 ^ bits by omega)
  rw [Nat.sub_add_cancel (by omega)] at rest
  rw [eq, rest]

end Align
