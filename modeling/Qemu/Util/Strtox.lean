import Qemu.Util.Cutils

/-! Text to numbers in any base: what the C library reads, and what `qemu_strtoui` makes of it. -/

namespace Qemu.Util

/-- The value of a character as a digit; letters go on from ten. -/
def digitValue (c : Char) : Option Nat :=
  if '0' ≤ c ∧ c ≤ '9' then some (c.toNat - '0'.toNat)
  else if 'a' ≤ c ∧ c ≤ 'z' then some (c.toNat - 'a'.toNat + 10)
  else if 'A' ≤ c ∧ c ≤ 'Z' then some (c.toNat - 'A'.toNat + 10)
  else none

/-- Whether a character is a digit of a base. -/
def isDigitOf (base : Nat) (c : Char) : Bool := (digitValue c).any (· < base)

/-- Whether a hexadecimal number with its prefix starts here. -/
def hasHexPrefix : CString → Bool
  | '0' :: x :: d :: _ => (x = 'x' || x = 'X') && isDigitOf 16 d
  | _ => false

/-- The base of the digits, and where they start. -/
def digitsBase (base : Nat) (text : CString) : Nat × CString :=
  if (base = 0 ∨ base = 16) ∧ hasHexPrefix text then (16, text.drop 2)
  else if base = 0 then (if text.head? = some '0' then 8 else 10, text)
  else (base, text)

def digitsValue (base : Nat) (digits : CString) : Nat :=
  digits.foldl (fun value c => base * value + (digitValue c).getD 0) 0

/-- A number as the C library reads it. -/
structure Scan where
  negative : Bool
  magnitude : Nat
  /-- The text after the number. -/
  rest : CString
  deriving DecidableEq

/-- The number at the start of a text, after white space and a sign. -/
def scanInteger (base : Nat) (nptr : CString) : Option Scan :=
  let (negative, text) := splitSign (nptr.dropWhile isSpace)
  let (base, text) := digitsBase base text
  let digits := text.takeWhile (isDigitOf base)
  if digits = [] then none else some ⟨negative, digitsValue base digits, text.drop digits.length⟩

/-- The results of the conversions: zero, `-EINVAL` and `-ERANGE`. -/
inductive StrtoxRet
  | ok | einval | erange
  deriving DecidableEq

/-- `endptr` says whether the caller wants the end. -/
def checkStrtoxError (nptr ep : CString) (endptr : Bool) (errno : StrtoxRet) : StrtoxRet :=
  if errno = .ok ∧ ep = nptr then .einval
  else if endptr = false ∧ ep ≠ [] then .einval
  else errno

/-- `strtoull` of the C standard: the value, the end and `errno`. -/
def strtoull (base : Nat) (nptr : CString) : BitVec 64 × CString × StrtoxRet :=
  match scanInteger base nptr with
  | none => (0, nptr, .ok)
  | some scan =>
    if scan.magnitude < 2 ^ 64 then
      (if scan.negative then -BitVec.ofNat 64 scan.magnitude else BitVec.ofNat 64 scan.magnitude,
        scan.rest, .ok)
    else (BitVec.allOnes 64, scan.rest, .erange)

/-- What `qemu_strtoui` makes of a result of `strtoull`, read as `long long`. -/
def clampUnsigned (value : BitVec 64) (errno : StrtoxRet) : BitVec 32 × StrtoxRet :=
  if errno = .erange then (BitVec.allOnes 32, errno)
  else if value.toInt > 2 ^ 32 - 1 then (BitVec.allOnes 32, .erange)
  else if value.toInt < -2 ^ 31 then (BitVec.allOnes 32, .erange)
  else (value.setWidth 32, errno)

/-- `qemu_strtoui` with the stored number, for a base that passes its assertion. -/
def qemuStrtoui (nptr : CString) (endptr : Bool) (base : Nat) : StrtoxRet × BitVec 32 :=
  let (value, ep, errno) := strtoull base nptr
  let (result, errno) := clampUnsigned value errno
  (checkStrtoxError nptr ep endptr errno, result)

variable {nptr : CString} {base : Nat} {scan : Scan}

theorem length_splitSign (text) : (splitSign text).2.length ≤ text.length := by
  unfold splitSign
  split <;> simp

theorem rest_ne_of_scan (found : scanInteger base nptr = some scan) : scan.rest ≠ nptr := by
  intro same
  have shorter : scan.rest.length < nptr.length := by
    simp only [scanInteger] at found
    -- Skipping white space, the sign and the prefix leaves at most what there was.
    have skipped : (nptr.dropWhile isSpace).length ≤ nptr.length :=
      (List.dropWhile_sublist _).length_le
    have signed := length_splitSign (nptr.dropWhile isSpace)
    generalize splitSign (nptr.dropWhile isSpace) = parts at found signed
    have prefixed : (digitsBase base parts.2).2.length ≤ parts.2.length := by
      unfold digitsBase
      split_ifs <;> simp
    generalize digitsBase base parts.2 = start at found prefixed
    split at found
    · contradiction
    rename_i digits
    cases found
    have some_digit := List.length_pos_iff.mpr digits
    have within : (start.2.takeWhile (isDigitOf start.1)).length ≤ start.2.length :=
      (List.takeWhile_sublist _).length_le
    rw [List.length_drop]
    omega
  rw [same] at shorter
  omega

/-- The outcome that the header of `qemu_strtoui` promises. -/
def ReportsExactly (nptr : CString) (endptr : Bool) (base : Nat) : Prop :=
  match scanInteger base nptr with
  | none => (qemuStrtoui nptr endptr base).1 = .einval
  | some scan =>
    if endptr = false ∧ scan.rest ≠ [] then (qemuStrtoui nptr endptr base).1 = .einval
    else if scan.magnitude ≤ 2 ^ 32 - 1 then
      qemuStrtoui nptr endptr base =
        (.ok, if scan.negative then -BitVec.ofNat 32 scan.magnitude
          else BitVec.ofNat 32 scan.magnitude)
    else qemuStrtoui nptr endptr base = (.erange, BitVec.allOnes 32)

/-- The misjudged magnitudes: those back in the accepted interval when `strtoull`'s result is read
with a sign, and the negative ones that leave it. -/
def Misjudged (scan : Scan) : Prop :=
  if scan.negative then
    2 ^ 31 < scan.magnitude ∧ scan.magnitude < 2 ^ 32 ∨
      2 ^ 64 - 2 ^ 32 < scan.magnitude ∧ scan.magnitude < 2 ^ 64
  else 2 ^ 64 - 2 ^ 31 ≤ scan.magnitude ∧ scan.magnitude < 2 ^ 64

theorem toInt_signed {negative : Bool} {magnitude : Nat} (fits : magnitude < 2 ^ 64) :
    (if negative then -BitVec.ofNat 64 magnitude else BitVec.ofNat 64 magnitude).toInt =
      if negative then (if magnitude ≤ 2 ^ 63 then -(magnitude : Int) else 2 ^ 64 - magnitude)
      else (if magnitude < 2 ^ 63 then (magnitude : Int) else magnitude - 2 ^ 64) := by
  cases negative with
  | true =>
    simp only [if_true, BitVec.toInt_eq_toNat_cond, BitVec.toNat_neg, BitVec.toNat_ofNat]
    split_ifs <;> omega
  | false =>
    simp only [Bool.false_eq_true, if_false, BitVec.toInt_eq_toNat_cond, BitVec.toNat_ofNat]
    split_ifs <;> omega

theorem setWidth_signed (negative : Bool) (magnitude : Nat) :
    (if negative then -BitVec.ofNat 64 magnitude else BitVec.ofNat 64 magnitude).setWidth 32 =
      if negative then -BitVec.ofNat 32 magnitude else BitVec.ofNat 32 magnitude := by
  apply BitVec.eq_of_toNat_eq
  cases negative with
  | true =>
    simp only [if_true, BitVec.toNat_setWidth, BitVec.toNat_neg, BitVec.toNat_ofNat]
    omega
  | false =>
    simp only [Bool.false_eq_true, if_false, BitVec.toNat_setWidth, BitVec.toNat_ofNat]
    omega

/-- When clamping 64 bits to 32 is the conversion to 32 bits. -/
theorem clampUnsigned_exact_iff (scan) (fits : scan.magnitude < 2 ^ 64) :
    clampUnsigned (if scan.negative then -BitVec.ofNat 64 scan.magnitude
      else BitVec.ofNat 64 scan.magnitude) .ok = (if scan.magnitude ≤ 2 ^ 32 - 1 then
          (if scan.negative then -BitVec.ofNat 32 scan.magnitude
            else BitVec.ofNat 32 scan.magnitude, .ok)
        else (BitVec.allOnes 32, .erange)) ↔ ¬ Misjudged scan := by
  rw [clampUnsigned, toInt_signed fits, setWidth_signed, Misjudged]
  -- The code's two tests and the intended one cut the magnitudes at different places.
  cases scan.negative with
  | true =>
    simp only [reduceCtorEq, if_false, if_true]
    split_ifs <;> simp <;> omega
  | false =>
    simp only [reduceCtorEq, if_false, Bool.false_eq_true]
    split_ifs <;> simp <;> omega

/-- The conversion is right for exactly the texts whose number is not misjudged. -/
theorem qemuStrtoui_exact_iff (nptr : CString) (endptr : Bool) (base : Nat) :
    ReportsExactly nptr endptr base ↔
      ¬ ∃ scan, scanInteger base nptr = some scan ∧
          (endptr = true ∨ scan.rest = []) ∧ Misjudged scan := by
  rw [ReportsExactly]
  cases found : scanInteger base nptr with
  | none => simp [qemuStrtoui, strtoull, found, clampUnsigned, checkStrtoxError]
  | some scan =>
    have moved := rest_ne_of_scan found
    simp only [Option.some.injEq, exists_eq_left']
    by_cases trailing : endptr = false ∧ scan.rest ≠ []
    · -- The error for the characters that are left comes before the others.
      have errs : (qemuStrtoui nptr endptr base).1 = .einval := by
        simp only [qemuStrtoui, strtoull, found]
        split_ifs <;> simp [checkStrtoxError, trailing]
      simp only [if_pos trailing, errs, true_iff]
      rintro ⟨wanted | consumed, _⟩
      · simp [wanted] at trailing
      · exact trailing.2 consumed
    have checked : ∀ errno, checkStrtoxError nptr scan.rest endptr errno = errno := by
      intro errno
      rw [checkStrtoxError, if_neg (fun both => moved both.2), if_neg trailing]
    have consumed : endptr = true ∨ scan.rest = [] := by
      cases endptr <;> simp_all
    simp only [if_neg trailing, consumed, true_and]
    by_cases fits : scan.magnitude < 2 ^ 64
    · rw [← clampUnsigned_exact_iff scan fits]
      simp only [qemuStrtoui, strtoull, found, if_pos fits, checked]
      split_ifs <;> simp [Prod.ext_iff, and_comm]
    -- The library itself reports what does not fit 64 bits.
    have large : ¬ scan.magnitude ≤ 2 ^ 32 - 1 := by omega
    have judged : ¬ Misjudged scan := by
      unfold Misjudged
      split_ifs <;> omega
    simp only [if_neg large, judged, not_false_eq_true, iff_true, qemuStrtoui,
      strtoull, found, if_neg fits]
    simp [clampUnsigned, checked]

/-- The largest 64-bit number is accepted as the largest 32-bit one. -/
theorem qemuStrtoui_accepts_wrapped : ¬ ReportsExactly "18446744073709551615".toList true 10 := by
  have read : scanInteger 10 "18446744073709551615".toList =
    some ⟨false, 2 ^ 64 - 1, []⟩ := by decide +kernel
  have result : qemuStrtoui "18446744073709551615".toList true 10 =
    (.ok, BitVec.allOnes 32) := by decide +kernel
  rw [ReportsExactly, read, result]
  simp only
  rw [if_neg (by decide), if_neg (by decide)]
  decide

end Qemu.Util
