import Qemu.Lib.WordBits

/-! The refcounts in a refcount block, of every width from one bit to eight bytes. -/

namespace Qemu.Qcow2

open WordBits BitVec Nat

/-- The contents of a refcount block by bytes. -/
abbrev RefcountBlock := Nat → BitVec 8

/-- A refcount of less than a byte. -/
def getPacked (bits : Nat) (block : RefcountBlock) (index : Nat) : BitVec 64 :=
  ((block (index / (8 / bits)) >>> (bits * (index % (8 / bits)))) &&& lowMask 8 bits).setWidth 64

/-- Replace a refcount of less than a byte. -/
def setPacked (bits : Nat) (block : RefcountBlock) (index : Nat) (value : BitVec 64) :
    RefcountBlock := fun i =>
  if i = index / (8 / bits) then
    (block i &&& ~~~(lowMask 8 bits <<< (bits * (index % (8 / bits))))) |||
      (value.setWidth 8 <<< (bits * (index % (8 / bits))))
  else block i

def getRefcountRo0 : RefcountBlock → Nat → BitVec 64 := getPacked 1

def setRefcountRo0 : RefcountBlock → Nat → BitVec 64 → RefcountBlock := setPacked 1

def getRefcountRo1 : RefcountBlock → Nat → BitVec 64 := getPacked 2

def setRefcountRo1 : RefcountBlock → Nat → BitVec 64 → RefcountBlock := setPacked 2

def getRefcountRo2 : RefcountBlock → Nat → BitVec 64 := getPacked 4

def setRefcountRo2 : RefcountBlock → Nat → BitVec 64 → RefcountBlock := setPacked 4

theorem getLsbD_getPacked {bits} (small : bits < 8) (block index k) :
    (getPacked bits block index).getLsbD k =
      (decide (k < bits) && (block (index / (8 / bits))).getLsbD
          (bits * (index % (8 / bits)) + k)) := by
  rw [getPacked, getLsbD_setWidth, getLsbD_and, getLsbD_ushiftRight, getLsbD_lowMask small]
  -- The bits above the mask are zero.
  by_cases inside : k < bits
  · simp [inside, show k < 64 by omega]
  · simp [inside]

variable {value : BitVec 64}

/-- A bit of a byte that a refcount was stored in. -/
theorem getLsbD_setPacked {bits} (small : bits < 8) (block index)
    (fits : value.toNat < 2 ^ bits) {i} (byte : i = index / (8 / bits)) {k} (inByte : k < 8) :
    (setPacked bits block index value i).getLsbD k =
      if bits * (index % (8 / bits)) ≤ k ∧ k < bits * (index % (8 / bits)) + bits then
        value.getLsbD (k - bits * (index % (8 / bits)))
      else (block i).getLsbD k := by
  -- The value has no bits beyond its field.
  have high : ∀ n, bits ≤ n → value.getLsbD n = false := fun n above =>
    testBit_lt_two_pow (lt_of_lt_of_le fits (Nat.pow_le_pow_right (by decide) above))
  rw [setPacked, if_pos byte]
  generalize bits * (index % (8 / bits)) = shift
  simp only [getLsbD_or, getLsbD_and, getLsbD_not, getLsbD_shiftLeft,
    getLsbD_lowMask small, getLsbD_setWidth]
  by_cases below : k < shift
  · rw [if_neg (by omega)]
    simp [below, inByte]
  by_cases inside : k - shift < bits
  · rw [if_pos (by omega)]
    simp [below, inByte, inside, show k - shift < 8 by omega]
  · rw [if_neg (by omega)]
    simp [below, inByte, inside, high (k - shift) (by omega)]

/-- Storing a packed refcount changes that one and no other. -/
theorem getPacked_setPacked {bits} (width : bits = 1 ∨ bits = 2 ∨ bits = 4) (block index other)
    (fits : value.toNat < 2 ^ bits) :
    getPacked bits (setPacked bits block index value) other = if other = index then value
        else getPacked bits block other := by
  have small : bits < 8 := by omega
  apply eq_of_getLsbD_eq
  intro k _
  rw [getLsbD_getPacked small]
  -- Bits of the field are read from its byte, those above are zero.
  by_cases inside : k < bits
  · by_cases byte : other / (8 / bits) = index / (8 / bits)
    · have inByte : bits * (other % (8 / bits)) + k < 8 := by
        rcases width with rfl | rfl | rfl <;> omega
      rw [getLsbD_setPacked small block index fits byte inByte]
      by_cases same : other = index
      · subst same
        rw [if_pos (by omega), if_pos rfl]
        simp [inside]
      · -- The fields of a byte do not overlap.
        rw [if_neg same, getLsbD_getPacked small, if_neg]
        rcases width with rfl | rfl | rfl <;> omega
    · have differ : other ≠ index := fun same => byte (by rw [same])
      rw [if_neg differ, getLsbD_getPacked small, setPacked, if_neg byte]
  by_cases same : other = index
  · have high : value.getLsbD k = false :=
      testBit_lt_two_pow (lt_of_lt_of_le fits
        (Nat.pow_le_pow_right (by decide) (Nat.le_of_not_lt inside)))
    simp [inside, same, high]
  · rw [if_neg same, getLsbD_getPacked small]
    simp [inside]

/-- A number of bytes in big-endian order. -/
def bigEndian (block : RefcountBlock) (start : Nat) : Nat → BitVec 64
  | 0 => 0#64
  | count + 1 => bigEndian block start count <<< 8 ||| (block (start + count)).setWidth 64

/-- A refcount of whole bytes. -/
def getBytes (count : Nat) (block : RefcountBlock) (index : Nat) : BitVec 64 :=
  bigEndian block (count * index) count

/-- Replace a refcount of whole bytes. -/
def setBytes (count : Nat) (block : RefcountBlock) (index : Nat) (value : BitVec 64) :
    RefcountBlock := fun i =>
  if i / count = index then (value >>> (8 * (count - 1 - i % count))).setWidth 8 else block i

def getRefcountRo3 : RefcountBlock → Nat → BitVec 64 := getBytes 1

def setRefcountRo3 : RefcountBlock → Nat → BitVec 64 → RefcountBlock := setBytes 1

def getRefcountRo4 : RefcountBlock → Nat → BitVec 64 := getBytes 2

def setRefcountRo4 : RefcountBlock → Nat → BitVec 64 → RefcountBlock := setBytes 2

def getRefcountRo5 : RefcountBlock → Nat → BitVec 64 := getBytes 4

def setRefcountRo5 : RefcountBlock → Nat → BitVec 64 → RefcountBlock := setBytes 4

def getRefcountRo6 : RefcountBlock → Nat → BitVec 64 := getBytes 8

def setRefcountRo6 : RefcountBlock → Nat → BitVec 64 → RefcountBlock := setBytes 8

/-- Where a bit of a big-endian field stands in the block. -/
theorem getLsbD_bigEndian (block start) {count} (small : count ≤ 8) (k) :
    (bigEndian block start count).getLsbD k =
      (decide (k < 8 * count) && (block (start + (count - 1 - k / 8))).getLsbD (k % 8)) := by
  induction count generalizing k with
  | zero => simp [bigEndian]
  | succ count ih =>
    rw [bigEndian, getLsbD_or, getLsbD_shiftLeft, getLsbD_setWidth]
    by_cases low : k < 8
    · -- The last byte.
      rw [show k / 8 = 0 by omega, show k % 8 = k by omega]
      simp [low, show k < 64 by omega, show k < 8 * (count + 1) by omega]
    rw [ih (by omega), show (k - 8) / 8 = k / 8 - 1 by omega, show (k - 8) % 8 = k % 8 by omega,
      show count - 1 - (k / 8 - 1) = count +
        1 - 1 - k / 8 by omega, getLsbD_of_ge _ _ (Nat.le_of_not_lt low)]
    by_cases inside : k < 8 * (count + 1)
    · simp [low, inside, show k < 64 by omega, show k - 8 < 8 * count by omega]
    · simp [inside, show ¬ k - 8 < 8 * count by omega]

/-- Setting a field of whole bytes changes that field only. -/
theorem getBytes_setBytes {count} (some : 0 < count) (small : count ≤ 8) (block index other)
    (fits : value.toNat < 2 ^ (8 * count)) :
    getBytes count (setBytes count block index value) other = if other = index then value
        else getBytes count block other := by
  apply eq_of_getLsbD_eq
  intro k _
  rw [getBytes, getLsbD_bigEndian _ _ small]
  by_cases inside : k < 8 * count
  · have place : count - 1 - k / 8 < count := by omega
    have index' : (count * other + (count - 1 - k / 8)) / count = other := by
      rw [mul_add_div some, div_eq_of_lt place, Nat.add_zero]
    by_cases same : other = index
    · -- The byte was taken from the value at the same distance from its end.
      subst same
      rw [setBytes, if_pos index', if_pos rfl, mul_add_mod, mod_eq_of_lt place, getLsbD_setWidth,
        getLsbD_ushiftRight, show 8 * (count - 1 - (count - 1 - k / 8)) + k % 8 = k by omega]
      simp [inside, mod_lt]
    · rw [setBytes, if_neg (index'.symm ▸ same), if_neg same, getBytes, getLsbD_bigEndian _ _ small]
  by_cases same : other = index
  · have high : value.getLsbD k = false :=
      testBit_lt_two_pow (lt_of_lt_of_le fits
        (Nat.pow_le_pow_right (by decide) (Nat.le_of_not_lt inside)))
    simp [inside, same, high]
  · rw [if_neg same, getBytes, getLsbD_bigEndian _ _ small]
    simp [inside]

def getRefcountFuncs : Fin 7 → RefcountBlock → Nat → BitVec 64
  | 0 => getRefcountRo0
  | 1 => getRefcountRo1
  | 2 => getRefcountRo2
  | 3 => getRefcountRo3
  | 4 => getRefcountRo4
  | 5 => getRefcountRo5
  | 6 => getRefcountRo6

/-- Store a refcount that passes the assertion. -/
def setRefcountFuncs : Fin 7 → RefcountBlock → Nat → BitVec 64 → RefcountBlock
  | 0 => setRefcountRo0
  | 1 => setRefcountRo1
  | 2 => setRefcountRo2
  | 3 => setRefcountRo3
  | 4 => setRefcountRo4
  | 5 => setRefcountRo5
  | 6 => setRefcountRo6

/-- At every width, setting an entry changes that entry only. -/
theorem getRefcountFuncs_set (order : Fin 7) (block index other)
    (fits : value.toNat < 2 ^ 2 ^ order.val) :
    getRefcountFuncs order (setRefcountFuncs order block index value) other =
      if other = index then value else getRefcountFuncs order block other := by
  match order with
  | 0 => exact getPacked_setPacked (.inl rfl) block index other fits
  | 1 => exact getPacked_setPacked (.inr (.inl rfl)) block index other fits
  | 2 => exact getPacked_setPacked (.inr (.inr rfl)) block index other fits
  | 3 => exact getBytes_setBytes (by decide) (by decide) block index other fits
  | 4 => exact getBytes_setBytes (by decide) (by decide) block index other fits
  | 5 => exact getBytes_setBytes (by decide) (by decide) block index other fits
  | 6 => exact getBytes_setBytes (by decide) (by decide) block index other fits

theorem getRefcountFuncs_zero (order : Fin 7) (index) :
    getRefcountFuncs order (fun _ => 0#8) index = 0#64 := by
  have packed {bits : Nat} (small : bits < 8) : getPacked bits (fun _ => 0#8) index = 0#64 := by
    apply eq_of_getLsbD_eq
    intro k _
    simp [getLsbD_getPacked small]
  have bytes {count : Nat} (small : count ≤ 8) : getBytes count (fun _ => 0#8) index = 0#64 := by
    apply eq_of_getLsbD_eq
    intro k _
    simp [getBytes, getLsbD_bigEndian _ _ small]
  match order with
  | 0 => exact packed (by decide)
  | 1 => exact packed (by decide)
  | 2 => exact packed (by decide)
  | 3 => exact bytes (by decide)
  | 4 => exact bytes (by decide)
  | 5 => exact bytes (by decide)
  | 6 => exact bytes (by decide)

/-- An entry fits its width. -/
theorem getRefcountFuncs_lt (order : Fin 7) (block index) :
    (getRefcountFuncs order block index).toNat < 2 ^ 2 ^ order.val := by
  have packed {bits : Nat} (small : bits < 8) : (getPacked bits block index).toNat < 2 ^ bits := by
    refine lt_pow_two_of_testBit _ fun k above => ?_
    rw [testBit_toNat, getLsbD_getPacked small]
    simp [not_lt.mpr above]
  have bytes {count : Nat} (small : count ≤ 8) :
      (getBytes count block index).toNat < 2 ^ (8 * count) := by
    refine lt_pow_two_of_testBit _ fun k above => ?_
    rw [testBit_toNat, getBytes, getLsbD_bigEndian _ _ small]
    simp [not_lt.mpr above]
  match order with
  | 0 => exact packed (by decide)
  | 1 => exact packed (by decide)
  | 2 => exact packed (by decide)
  | 3 => exact bytes (by decide)
  | 4 => exact bytes (by decide)
  | 5 => exact bytes (by decide)
  | 6 => exact bytes (by decide)

end Qemu.Qcow2
