import Mathlib.Data.BitVec

/-! Words of ones from a position on, and the aligned ranges they describe. -/

namespace HighMask

open BitVec

def highMask (w k : Nat) : BitVec w :=
  allOnes w <<< k

variable {w : Nat}

theorem getLsbD_highMask (k i) : (highMask w k).getLsbD i = (decide (i < w) && decide (k ≤ i)) := by
  rw [highMask, getLsbD_shiftLeft, getLsbD_allOnes]
  by_cases within : i < w
  · by_cases above : k ≤ i
    · simp [within, show ¬ i < k by omega, show i - k < w by omega, above]
    · simp [within, show i < k by omega, above]
  · simp [within]

theorem highMask_shiftLeft (k) : highMask w k <<< 1 = highMask w (k + 1) := by
  rw [highMask, highMask, BitVec.shiftLeft_add]

theorem highMask_and (a b) : highMask w a &&& highMask w b = highMask w (max a b) := by
  apply eq_of_getLsbD_eq
  intro i within
  rw [getLsbD_and, getLsbD_highMask, getLsbD_highMask, getLsbD_highMask]
  simp only [within, decide_true, Bool.true_and, ← Bool.decide_and]
  congr 1
  exact propext (by omega)

theorem highMask_of_le {k} (beyond : w ≤ k) : highMask w k = 0 := by
  apply eq_of_getLsbD_eq
  intro i within
  rw [getLsbD_highMask]
  simp only [ofNat_eq_ofNat, getLsbD_zero, Bool.and_eq_false_imp]
  intro _
  simp only [decide_eq_false_iff_not]
  omega

theorem not_twoPow_sub_one (k) : ~~~(twoPow w k - 1) = highMask w k := by
  calc ~~~(twoPow w k - 1)
      = -twoPow w k := (not_eq_comm.mp (not_neg _)).symm
    _ = allOnes w * twoPow w k := by rw [← neg_one_eq_allOnes, BitVec.neg_mul, BitVec.one_mul]
    _ = highMask w k := (shiftLeft_eq_mul_twoPow _ _).symm

theorem and_highMask_congr {x y a b} (later : a ≤ b)
    (agree : x &&& highMask w a = y &&& highMask w a) :
    x &&& highMask w b = y &&& highMask w b := by
  have split : highMask w b = highMask w a &&& highMask w b := by
    rw [highMask_and, max_eq_right later]
  rw [split, ← BitVec.and_assoc, agree, BitVec.and_assoc]

theorem and_eq_of_xor_and_eq_zero {x y mask : BitVec w}
    (gone : (x ^^^ y) &&& mask = 0) : y &&& mask = x &&& mask := by
  apply eq_of_getLsbD_eq
  intro i within
  have bit := congrArg (fun word => word.getLsbD i) gone
  simp only [getLsbD_and, getLsbD_xor, ofNat_eq_ofNat, getLsbD_zero] at bit ⊢
  cases same : mask.getLsbD i with
  | false => simp
  | true =>
    rw [same, Bool.and_true, bne_eq_false_iff_eq] at bit
    rw [bit]

end HighMask
