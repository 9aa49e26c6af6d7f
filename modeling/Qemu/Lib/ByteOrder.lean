import Mathlib.Data.Nat.Basic

/-! Strings of bytes as words in either order: spelling, cutting, joining, reversing. -/

namespace ByteOrder

open BitVec

variable {w : Nat} {big : Bool} {bytes : Nat → BitVec 8} {n : Nat} {count i : Nat} {word : BitVec w}

/-- The position in a word of a byte of a string. -/
def place (big : Bool) (length k : Nat) : Nat := if big then length - 1 - k else k

def seat (big : Bool) (length count k : Nat) : Nat := if big then length - count - k else k

/-- The word that the first bytes of a string spell. -/
def spell (w : Nat) (big : Bool) (bytes : Nat → BitVec 8) : Nat → BitVec w
  | 0 => 0#w
  | n + 1 =>
    if big then (spell w big bytes n <<< 8) ||| (bytes n).setWidth w
    else spell w big bytes n ||| ((bytes n).setWidth w <<< (8 * n))

/-- The byte of a word at a position from the lowest on. -/
def byteAt (word : BitVec w) (k : Nat) : BitVec 8 := (word >>> (8 * k)).setWidth 8

/-- The low bytes of a word in reverse order. -/
def reverse (word : BitVec w) (length : Nat) : BitVec w := spell w true (byteAt word) length

/-- The low bytes of a word, the others cleared. -/
def low (word : BitVec w) (length : Nat) : BitVec w := (word.setWidth (8 * length)).setWidth w

def front (bytes : Nat → BitVec 8) (count k : Nat) : BitVec 8 := if k < count then bytes k else 0#8

theorem getLsbD_byteAt (word : BitVec w) (k i) :
    (byteAt word k).getLsbD i = (decide (i < 8) && word.getLsbD (8 * k + i)) := by
  rw [byteAt, getLsbD_setWidth, getLsbD_ushiftRight]

theorem getLsbD_low (word : BitVec w) (length i) :
    (low word length).getLsbD i = (decide (i < 8 * length) && word.getLsbD i) := by
  -- Beyond the width of the word both sides are clear.
  rw [low, getLsbD_setWidth, getLsbD_setWidth]
  by_cases inside : i < w
  · simp [inside]
  · simp [getLsbD_of_ge word i (by omega)]

/-- The bits of a spelled word are those of its bytes. -/
theorem getLsbD_spell (fits : 8 * n ≤ w) (i) : (spell w big bytes n).getLsbD i =
      (decide (i < 8 * n) && (bytes (place big n (i / 8))).getLsbD (i % 8)) := by
  induction n generalizing i with
  | zero => simp [spell]
  | succ n ih =>
    have shorter := ih (by omega)
    cases big with
    | false =>
      -- The new byte goes above the others.
      simp only [spell, place, Bool.false_eq_true, if_false, getLsbD_or, getLsbD_shiftLeft,
        getLsbD_setWidth, shorter]
      rcases lt_or_ge i (8 * n) with below | above
      · simp [below, show i < 8 * (n + 1) by omega]
      rcases lt_or_ge i (8 * (n + 1)) with inside | out
      · have column : i / 8 = n := by omega
        have bit : i % 8 = i - 8 * n := by omega
        simp [inside, column, bit, not_lt.mpr above,
          show i < w by omega, show i - 8 * n < w by omega]
      · simp [not_lt.mpr out, not_lt.mpr above, getLsbD_of_ge (bytes n) (i - 8 * n) (by omega)]
    | true =>
      -- The new byte goes below the others, which move up.
      simp only [spell, place, if_true, getLsbD_or, getLsbD_shiftLeft, getLsbD_setWidth, shorter]
      rcases lt_or_ge i 8 with lowest | higher
      · have column : i / 8 = 0 := by omega
        have bit : i % 8 = i := by omega
        simp [lowest, column, bit, show i < w by omega, show i < 8 * (n + 1) by omega]
      have clear := getLsbD_of_ge (bytes n) i (by omega)
      rcases lt_or_ge i (8 * (n + 1)) with inside | out
      · have column : n - i / 8 = n - 1 - (i - 8) / 8 := by omega
        have bit : i % 8 = (i - 8) % 8 := by omega
        simp [inside, column, bit, clear, not_lt.mpr higher,
          show i < w by omega, show i - 8 < 8 * n by omega]
      · simp [not_lt.mpr out, clear, show ¬ i - 8 < 8 * n by omega]

theorem spell_congr {bytes'}
    (agree : ∀ k, k < n → bytes k = bytes' k) : spell w big bytes n = spell w big bytes' n := by
  induction n with
  | zero => rfl
  | succ n ih => rw [spell, spell, agree n (by omega), ih fun k below => agree k (by omega)]

theorem spell_zeros (big n) : spell w big (fun _ => 0#8) n = 0#w := by
  induction n with
  | zero => rfl
  | succ n ih => simp [spell, ih]

theorem spell_front : spell w big (front bytes n) n = spell w big bytes n :=
  spell_congr fun _ below => if_pos below

theorem seat_le_iff {c} (inside : i + count ≤ n) (column : c < n) :
    (seat big n count i ≤ c ∧ c - seat big n count i < count) ↔
      i ≤ place big n c ∧ place big n c < i + count := by
  cases big with
  | false =>
    simp only [seat, place, Bool.false_eq_true, if_false]
    omega
  | true =>
    simp only [seat, place, if_true]
    omega

/-- Adding the next piece, moved to its place, extends the front. -/
theorem spell_front_or (fits : 8 * n ≤ w) (inside : i + count ≤ n) :
    spell w big (front bytes i) n |||
        (spell w big (fun k => bytes (i + k)) count <<< (8 * seat big n count i)) =
      spell w big (front bytes (i + count)) n := by
  have reach : seat big n count i + count ≤ n := by
    unfold seat
    split <;> omega
  apply eq_of_getLsbD_eq
  intro j within
  rw [getLsbD_or, getLsbD_shiftLeft, getLsbD_spell fits,
    getLsbD_spell (by omega), getLsbD_spell fits]
  rcases lt_or_ge j (8 * n) with below | above
  · have columns : (seat big n count i ≤ j / 8 ∧ j / 8 - seat big n count i < count) ↔
        i ≤ place big n (j / 8) ∧ place big n (j / 8) < i + count := seat_le_iff inside (by omega)
    by_cases covered : seat big n count i ≤ j / 8 ∧ j / 8 - seat big n count i < count
    · -- The bit comes from the new piece, since the front stops before it.
      -- A column of a piece holds the byte of the string that the column of the word asks for.
      have place_column : i + place big count ((j / 8) - seat big n count i) =
          place big n (j / 8) := by
        cases big with
        | false =>
          simp only [seat, place, Bool.false_eq_true, if_false] at covered ⊢
          omega
        | true =>
          simp only [seat, place, if_true] at covered ⊢
          omega
      have same := place_column
      obtain ⟨notBefore, notAfter⟩ := columns.mp covered
      have column : (j - 8 * seat big n count i) / 8 = j / 8 - seat big n count i := by omega
      have bit : (j - 8 * seat big n count i) % 8 = j % 8 := by omega
      simp [front, below, within, column, bit, same, notAfter, not_lt.mpr notBefore,
        show ¬ j < 8 * seat big n count
          i by omega, show j - 8 * seat big n count i < 8 * count by omega]
    -- The piece is clear here, and both fronts agree.
    have agree : front bytes i (place big n (j / 8)) =
        front bytes (i + count) (place big n (j / 8)) := by
      rw [columns] at covered
      unfold front
      split <;> split <;> first | rfl | omega
    have clear : (decide (j < 8 * seat big n count i)) = true ∨
        decide (j - 8 * seat big n count i < 8 * count) = false := by
      simp only [decide_eq_true_eq, decide_eq_false_iff_not]
      omega
    rcases clear with early | late
    · simp [agree, early]
    · simp [agree, late]
  · simp [not_lt.mpr above, show ¬ j - 8 * seat big n count i < 8 * count by omega]

/-- Shifting a big-endian word right drops its last bytes. -/
theorem spell_big_ushiftRight (fits : 8 * count ≤ w) (short : n ≤ count) :
    spell w true bytes count >>> (8 * (count - n)) = spell w true bytes n := by
  apply eq_of_getLsbD_eq
  intro j _
  rw [getLsbD_ushiftRight, getLsbD_spell fits, getLsbD_spell (by omega)]
  rcases lt_or_ge j (8 * n) with below | above
  · have column : (8 * (count - n) + j) / 8 = count - n + j / 8 := by omega
    have bit : (8 * (count - n) + j) % 8 = j % 8 := by omega
    have same : place true count (count - n + j / 8) = place true n (j / 8) := by
      simp only [place, if_true]
      omega
    simp [below, column, bit, same, show 8 * (count - n) + j < 8 * count by omega]
  · simp [not_lt.mpr above, show ¬ 8 * (count - n) + j < 8 * count by omega]

/-- A little-endian word is short when the bytes above are zero. -/
theorem spell_little_eq_iff (fits : 8 * count ≤ w) (short : n ≤ count) :
    spell w false bytes count = spell w false bytes n ↔ ∀ k, n ≤ k → k < count → bytes k = 0#8 := by
  constructor
  · intro same k notBelow within
    -- The shorter word is clear in the column of the byte.
    apply eq_of_getLsbD_eq
    intro j small
    have bits := congrArg (fun word => word.getLsbD (8 * k + j)) same
    simp only [getLsbD_spell fits,
      getLsbD_spell (le_trans (Nat.mul_le_mul_left 8 short) fits)] at bits
    have column : (8 * k + j) / 8 = k := by omega
    have bit : (8 * k + j) % 8 = j := by omega
    simpa [place, column, bit, show 8 * k +
      j < 8 * count by omega, show ¬ 8 * k + j < 8 * n by omega] using bits
  · intro zeros
    apply eq_of_getLsbD_eq
    intro j _
    rw [getLsbD_spell fits, getLsbD_spell (by omega)]
    rcases lt_or_ge j (8 * n) with below | above
    · simp [place, below, show j < 8 * count by omega]
    · by_cases within : j < 8 * count
      · simp [place, not_lt.mpr above, zeros (j / 8) (by omega) (by omega)]
      · simp [not_lt.mpr above, within]

/-- A piece shifted out of a word has the word's own bytes. -/
theorem byteAt_piece {k} (inside : i + count ≤ n) (within : k < count) :
    byteAt (low (word >>> (8 * seat big n count i)) count) (place big count k) =
      byteAt word (place big n (i + k)) := by
  have place_piece : seat big n count i + place big count k = place big n (i + k) := by
    cases big with
    | false => simp [seat, place]
    | true =>
      simp only [seat, place, if_true]
      omega
  have pos : seat big n count i + place big count k = place big n (i + k) := place_piece
  have column : place big count k < count := by
    unfold place
    split <;> omega
  apply eq_of_getLsbD_eq
  intro j small
  rw [getLsbD_byteAt, getLsbD_byteAt, getLsbD_low, getLsbD_ushiftRight, ← pos]
  simp [show 8 * place big count k + j < 8 * count by omega, Nat.mul_add, Nat.add_assoc]

/-- Spelling a word's bytes gives the word, cut to their number. -/
theorem spell_byteAt (fits : 8 * n ≤ w) :
    spell w big (fun k => byteAt word (place big n k)) n = low word n := by
  apply eq_of_getLsbD_eq
  intro j _
  rw [getLsbD_spell fits, getLsbD_low, getLsbD_byteAt]
  rcases lt_or_ge j (8 * n) with below | above
  · have twice : place big n (place big n (j / 8)) = j / 8 := by
      unfold place
      split <;> omega
    simp [below, twice, Nat.mod_lt, Nat.div_add_mod]
  · simp [not_lt.mpr above]

theorem low_spell (fits : 8 * n ≤ w) : low (spell w big bytes n) n = spell w big bytes n := by
  apply eq_of_getLsbD_eq
  intro j _
  rw [getLsbD_low, getLsbD_spell fits, ← Bool.and_assoc, Bool.and_self]

/-- Reversing twice is the identity on the low bytes. -/
theorem reverse_low_reverse (fits : 8 * n ≤ w) :
    reverse (low (reverse word n) n) n = low word n := by
  apply eq_of_getLsbD_eq
  intro j _
  rw [reverse, reverse, getLsbD_spell fits, getLsbD_byteAt, getLsbD_low,
    getLsbD_spell fits, getLsbD_low, getLsbD_byteAt]
  rcases lt_or_ge j (8 * n) with below | above
  · have mirrored : place true n (j / 8) = n - 1 - j / 8 := rfl
    have column : (8 * (n - 1 - j / 8) + j % 8) / 8 = n - 1 - j / 8 := by omega
    have bit : (8 * (n - 1 - j / 8) + j % 8) % 8 = j % 8 := by omega
    have twice : place true n (n - 1 - j / 8) = j / 8 := by
      simp only [place, if_true]
      omega
    simp [below, mirrored, column, bit, twice, Nat.mod_lt, Nat.div_add_mod,
      show 8 * (n - 1 - j / 8) + j % 8 < 8 * n by omega]
  · simp [not_lt.mpr above]

end ByteOrder
