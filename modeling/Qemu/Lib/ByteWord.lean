import Mathlib.Data.Nat.Bitwise
import Mathlib.Tactic.Ring

/-! Words as little-endian strings, and finding a zero byte by subtraction. -/

namespace ByteWord

open Nat

def byteOf (x k : Nat) : Nat := x / 256 ^ k % 256

/-- The number a little-endian byte string spells. -/
def ofBytes : Nat → (Nat → UInt8) → Nat
  | 0, _ => 0
  | count + 1, bytes => (bytes 0).toNat + 256 * ofBytes count (fun k => bytes (k + 1))

/-- The number whose bytes below `count` are all one. -/
def ones : Nat → Nat
  | 0 => 0
  | count + 1 => 256 * ones count + 1

theorem byteOf_succ (x k) : byteOf x (k + 1) = byteOf (x / 256) k := by
  -- Dividing by one more byte is dividing twice.
  rw [byteOf, byteOf, Nat.pow_succ', Nat.div_div_eq_div_mul]

theorem ofBytes_lt (count) (bytes : Nat → UInt8) : ofBytes count bytes < 256 ^ count := by
  induction count generalizing bytes with
  | zero => simp [ofBytes]
  | succ count ih =>
    have tail := ih (fun k => bytes (k + 1))
    have head := (bytes 0).toNat_lt
    rw [ofBytes, Nat.pow_succ]
    omega

theorem byteOf_ofBytes {count k} (bytes : Nat → UInt8) (below : k < count) :
    byteOf (ofBytes count bytes) k = (bytes k).toNat := by
  induction count generalizing bytes k with
  | zero => omega
  | succ count ih =>
    have head := (bytes 0).toNat_lt
    cases k with
    | zero =>
      simp only [byteOf, ofBytes, Nat.pow_zero, Nat.div_one]
      omega
    | succ k =>
      -- The first byte leaves no trace in the quotient.
      have quotient : ofBytes (count + 1) bytes / 256 = ofBytes count (fun k => bytes (k + 1)) := by
        simp only [ofBytes]
        omega
      rw [byteOf_succ, quotient, ih _ (by omega)]

theorem byteOf_xor (x y k) : byteOf (x ^^^ y) k = byteOf x k ^^^ byteOf y k := by
  -- Division by and remainder of powers of two commute with the operator.
  have base : 256 ^ k = 2 ^ (8 * k) := by rw [Nat.pow_mul]
  rw [byteOf, byteOf, byteOf, base, xor_div_two_pow]
  exact xor_mod_two_pow (n := 8)

theorem byteOf_mod {count k} (x) (below : k < count) : byteOf (x % 256 ^ count) k = byteOf x k := by
  have split : 256 ^ count = 256 ^ k * 256 ^ (count - k) := by
    rw [← Nat.pow_add, Nat.add_sub_cancel' (le_of_lt below)]
  have factor : 256 ∣ 256 ^ (count - k) := dvd_pow_self _ (by omega)
  rw [byteOf, split, mod_mul_right_div_self, mod_mod_of_dvd _ factor, byteOf]

theorem testBit_top (x k) : x.testBit (8 * k + 7) = decide (128 ≤ byteOf x k) := by
  have base : 256 ^ k = 2 ^ (8 * k) := by rw [Nat.pow_mul]
  rw [Nat.testBit_eq_decide_div_mod_eq, Nat.pow_add, ← Nat.div_div_eq_div_mul, ← base, byteOf]
  apply decide_eq_decide.mpr
  omega

theorem ones_lt (count) : ones count < 256 ^ count := by
  induction count with
  | zero => simp [ones]
  | succ count ih =>
    rw [ones, Nat.pow_succ]
    omega

/-- Below the first zero byte, subtracting ones borrows nothing. -/
theorem byteOf_sub_ones {count k} (x) (below : k < count) (pos : ∀ j < k, byteOf x j ≠ 0) :
    byteOf (x + 256 ^ count - ones count) k = (byteOf x k + 255) % 256 := by
  -- Each nonzero low byte absorbs its own decrement, so the claim moves up one byte at a time.
  induction k generalizing x count with
  | zero =>
    cases count with
    | zero => omega
    | succ count =>
      have bound := ones_lt count
      simp only [byteOf, ones, Nat.pow_zero, Nat.div_one, Nat.pow_succ]
      omega
  | succ k ih =>
    cases count with
    | zero => omega
    | succ count =>
      have low : x % 256 ≠ 0 := by simpa [byteOf] using pos 0 (by omega)
      have quotient : (x + 256 ^ (count + 1) - ones (count + 1)) / 256 =
          x / 256 + 256 ^ count - ones count := by
        rw [ones, Nat.pow_succ]
        omega
      rw [byteOf_succ, quotient, ih _ (by omega) (fun j small => ?_), byteOf_succ]
      rw [← byteOf_succ]
      exact pos (j + 1) (by omega)

def onesWord : BitVec 64 := 0x0101010101010101#64

theorem onesWord_toNat : onesWord.toNat = ones 8 := by decide

/-- The mask has the top bit of every byte. -/
theorem topMask_getLsbD (i) : (onesWord <<< 7).getLsbD i = decide (i < 64 ∧ i % 8 = 7) := by
  -- Only sixty-four positions can be set, and each is checked.
  by_cases small : i < 64
  · have all : ∀ i : Fin 64, (onesWord <<< 7).getLsbD i.val =
        decide (i.val < 64 ∧ i.val % 8 = 7) := by
      decide
    exact all ⟨i, small⟩
  · rw [BitVec.getLsbD_of_ge _ _ (by omega)]
    simp [small]

/-- Up to the first zero byte, a top bit is set where the byte is zero. -/
theorem test_bit (x) {k} (within : k < 8) (pos : ∀ j < k, byteOf x.toNat j ≠ 0) :
    ((x - onesWord) &&& ~~~x &&& (onesWord <<< 7)).getLsbD (8 * k + 7) =
      decide (byteOf x.toNat k = 0) := by
  -- A decremented byte has its top bit set while the byte itself has not, only if the byte was
  -- zero.
  have inside : 8 * k + 7 < 64 := by omega
  have swapped : (x - onesWord).toNat = (x.toNat + 256 ^ 8 - ones 8) % 256 ^ 8 := by
    have bound := ones_lt 8
    rw [BitVec.toNat_sub, onesWord_toNat, show (2 : Nat) ^ 64 = 256 ^ 8 by norm_num]
    generalize ones 8 = low at bound ⊢
    generalize 256 ^ 8 = size at bound ⊢
    rw [Nat.add_comm, Nat.add_sub_assoc (le_of_lt bound)]
  have difference : (x - onesWord).toNat.testBit (8 * k + 7) =
      decide (128 ≤ (byteOf x.toNat k + 255) % 256) := by
    rw [swapped, testBit_top, byteOf_mod _ within, byteOf_sub_ones _ within pos]
  rw [BitVec.getLsbD_and, BitVec.getLsbD_and, BitVec.getLsbD_not, topMask_getLsbD, BitVec.getLsbD,
    difference, BitVec.getLsbD, testBit_top]
  simp only [inside, show (8 * k + 7) % 8 = 7 by omega, decide_true, Bool.true_and, Bool.and_true,
    and_self, ← decide_not, ← Bool.decide_and, decide_eq_decide]
  omega

/-- The bit trick tells whether some byte of a word is zero. -/
theorem zeroByte_test (x) : (x - onesWord) &&& ~~~x &&& (onesWord <<< 7) ≠ 0 ↔
    ∃ k < 8, byteOf x.toNat k = 0 := by
  constructor
  · -- Without a zero byte every tested bit is clear, and no other bit survives the mask.
    intro nonzero
    by_contra none
    push Not at none
    apply nonzero
    apply BitVec.eq_of_getLsbD_eq
    intro i small
    by_cases top : i % 8 = 7
    · have pos : i = 8 * (i / 8) + 7 := by omega
      rw [pos, test_bit x (by omega) (fun j below => none j (by omega))]
      simpa using none (i / 8) (by omega)
    · rw [BitVec.getLsbD_and, topMask_getLsbD]
      simp [top]
  · -- The lowest zero byte is reached by no borrow, so its own bit is set.
    rintro ⟨k, within, zero⟩ empty
    have exists_ : ∃ k, byteOf x.toNat k = 0 := ⟨k, zero⟩
    have least := Nat.find_min' exists_ zero
    have bit := test_bit x (by omega : Nat.find exists_ < 8)
      (fun j below => Nat.find_min exists_ below)
    rw [empty] at bit
    simp [Nat.find_spec exists_] at bit

/-- The low bytes of a number as a little-endian string. -/
def toBytes : Nat → Nat → List UInt8
  | 0, _ => []
  | count + 1, x => UInt8.ofNat x :: toBytes count (x / 256)

/-- The number a list of bytes spells. -/
def ofByteList : List UInt8 → Nat
  | [] => 0
  | byte :: rest => byte.toNat + 256 * ofByteList rest

@[simp] theorem length_toBytes (count x) : (toBytes count x).length = count := by
  induction count generalizing x with
  | zero => rfl
  | succ count ih => rw [toBytes, List.length_cons, ih]

theorem ofByteList_toBytes (count x) : ofByteList (toBytes count x) = x % 256 ^ count := by
  induction count generalizing x with
  | zero => simp [toBytes, ofByteList, mod_one]
  | succ count ih =>
    -- The first byte is the remainder, and the rest spells the quotient.
    have split : x % 256 ^ (count + 1) = x % 256 + 256 * (x / 256 % 256 ^ count) := by
      rw [Nat.pow_succ', mod_mul]
    rw [toBytes, ofByteList, ih, UInt8.toNat_ofNat', split]

end ByteWord
