import Mathlib.Data.Nat.Digits.Defs

/-! Numbers in text: what `printf` writes and what `qemu_strtoi64` reads. -/

namespace Qemu.Util

open Nat

/-- A C string without its end, one character for each byte. -/
abbrev CString := List Char

/-- A number of type `size_t` as `%zu` writes it. -/
def formatSize (n : Nat) : CString := toDigits 10 n

/-- A number of type `int` as `%i` writes it. -/
def formatInt : Int → CString
  | .ofNat n => toDigits 10 n
  | .negSucc n => '-' :: toDigits 10 (n + 1)

/-- The value of a counter of type `int` after some increments. -/
def intCounter (i : Nat) : Int := (BitVec.ofNat 32 i).toInt

theorem formatInt_counter {i} (small : i < 2 ^ 31) : formatInt (intCounter i) = formatSize i := by
  have value : intCounter i = (i : Int) := by
    rw [intCounter, BitVec.toInt_eq_toNat_of_lt, BitVec.toNat_ofNat, mod_eq_of_lt (by omega)]
    rw [BitVec.toNat_ofNat]
    omega
  rw [value]
  rfl

theorem isDigit_of_mem_formatSize {n c} (mem : c ∈ formatSize n) : c.isDigit :=
  isDigit_of_mem_toDigits (by decide) (by decide) mem

theorem formatSize_ne_nil (n) : formatSize n ≠ [] := by
  intro empty
  have value := @Nat.ofDigitChars_toDigits 10 n (by decide) (by decide)
  rw [formatSize] at empty
  rw [empty] at value
  -- Only zero could be written with none, and it is not.
  obtain rfl : 0 = n := value
  contradiction

theorem formatSize_injective {m n} (same : formatSize m = formatSize n) : m = n := by
  have read : ∀ k, ofDigitChars 10 (formatSize k) 0 = k := fun k =>
    ofDigitChars_toDigits (by decide) (by decide)
  rw [← read m, same, read n]

/-- The white space that `strtoll` skips, `isspace` of the C locale. -/
def isSpace (c : Char) : Bool := c = ' ' || (9 ≤ c.toNat && c.toNat ≤ 13)

/-- The sign that `strtoll` reads, and what follows. -/
def splitSign : CString → Bool × CString
  | '-' :: rest => (true, rest)
  | '+' :: rest => (false, rest)
  | rest => (false, rest)

/-- `qemu_strtoi64` in base ten with no `endptr`: nothing for no digits, something after them, or
out of range. -/
def qemuStrtoi64 (nptr : CString) : Option Int :=
  let (negative, digits) := splitSign (nptr.dropWhile isSpace)
  if digits = [] ∨ ¬ digits.all Char.isDigit then none
  else
    let magnitude : Int := ofDigitChars 10 digits 0
    let result := if negative then -magnitude else magnitude
    if -2 ^ 63 ≤ result ∧ result ≤ 2 ^ 63 - 1 then some result else none

theorem isDigit_plain {c} (digit : c.isDigit) : isSpace c = false ∧
    c ≠ '-' ∧ c ≠ '+' ∧ c ≠ '.' := by
  refine ⟨?_, ?_, ?_, ?_⟩
  · have lower : 48 ≤ c.toNat := by
      simp only [Char.isDigit, Bool.and_eq_true, decide_eq_true_eq] at digit
      exact digit.1
    rw [isSpace, Bool.or_eq_false_iff]
    refine ⟨decide_eq_false ?_, ?_⟩
    · rintro rfl
      contradiction
    · rw [Bool.and_eq_false_iff]
      exact .inr (decide_eq_false (by omega))
  all_goals
    rintro rfl
    contradiction

/-- A formatted index is parsed back. -/
theorem qemuStrtoi64_formatSize {n} (small : n < 2 ^ 63) :
    qemuStrtoi64 (formatSize n) = some (n : Int) := by
  have digits := @isDigit_of_mem_formatSize n
  have nonempty := formatSize_ne_nil n
  have value : ofDigitChars 10 (formatSize n) 0 = n := ofDigitChars_toDigits (by decide) (by decide)
  have all : (formatSize n).all Char.isDigit := List.all_eq_true.mpr fun c mem => digits mem
  -- The first character is a digit, so that nothing is skipped.
  have body : splitSign ((formatSize n).dropWhile isSpace) = (false, formatSize n) := by
    obtain ⟨first, rest, split⟩ := List.exists_cons_of_ne_nil nonempty
    obtain ⟨notSpace, notMinus, notPlus, _⟩ :=
      isDigit_plain (digits (c := first) (by rw [split]; exact List.mem_cons_self))
    rw [split, List.dropWhile_cons, notSpace]
    simp only [Bool.false_eq_true, if_false]
    unfold splitSign
    split
    · rename_i same
      exact absurd (List.cons.inj same).1 notMinus
    · rename_i same
      exact absurd (List.cons.inj same).1 notPlus
    · rfl
  rw [qemuStrtoi64, body]
  simp only [nonempty, all, not_true_eq_false, or_self, if_false, Bool.false_eq_true, value]
  exact if_pos (by omega)

end Qemu.Util
