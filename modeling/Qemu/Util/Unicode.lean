import Mathlib.Algebra.Order.Ring.Nat
import Mathlib.Algebra.Order.Sub.Basic
import Mathlib.Data.List.TakeWhile
import Mathlib.Tactic.Common

/-! Modified UTF-8: decoding is the inverse of encoding on all byte strings. -/

namespace Qemu.Unicode

open List Option Nat

/-- Of a codepoint read without sign. -/
def isValidCodepoint (codepoint : Nat) : Bool :=
  if codepoint > 0x10FFFF then false
  else if 0xFDD0 ≤ codepoint ∧ codepoint ≤ 0xFDEF ∨ codepoint &&& 0xFFFE = 0xFFFE then false
  else if 0xD800 ≤ codepoint ∧ codepoint ≤ 0xDFFF then false
  else true

/-- Without the byte that ends the string. -/
def modUtf8Encode (codepoint : Nat) : Option (List UInt8) :=
  if ¬ isValidCodepoint codepoint then none
  else if codepoint > 0 ∧ codepoint ≤ 0x7F then some [.ofNat (codepoint &&& 0x7F)]
  else if codepoint ≤ 0x7FF then
    some [.ofNat (0xC0 ||| ((codepoint >>> 6) &&& 0x1F)), .ofNat (0x80 ||| (codepoint &&& 0x3F))]
  else if codepoint ≤ 0xFFFF then
    some [.ofNat (0xE0 ||| ((codepoint >>> 12) &&& 0x0F)),
      .ofNat (0x80 ||| ((codepoint >>> 6) &&& 0x3F)), .ofNat (0x80 ||| (codepoint &&& 0x3F))]
  else
    some [.ofNat (0xF0 ||| ((codepoint >>> 18) &&& 0x07)),
      .ofNat (0x80 ||| ((codepoint >>> 12) &&& 0x3F)),
      .ofNat (0x80 ||| ((codepoint >>> 6) &&& 0x3F)), .ofNat (0x80 ||| (codepoint &&& 0x3F))]

/-- The loop over the leading ones of the first byte, with the bits left: the length and the mask.
-/
def leadLoop (byte : Nat) : Nat → Nat → Nat × Nat
  | 0, len => (len, 0)
  | i + 1, len => if byte &&& 2 ^ i ≠ 0 then leadLoop byte i (len + 1) else (len, 2 ^ i)

/-- The loop over the continuation bytes that are left: nothing if a byte outside the string is
read, else the end and the codepoint, if it is complete. -/
def contLoop (s : List UInt8) (n : Nat) : Nat → Nat → Nat → Option (Nat × Option Nat)
  | 0, i, cp => some (i, some cp)
  | left + 1, i, cp => do
    let byte ← if i < n then s[i]?.map UInt8.toNat else some 0
    if byte &&& 0xC0 ≠ 0x80 then return (i, none)
    contLoop s n left (i + 1) ((cp <<< 6) ||| (byte &&& 0x3F))

/-- The smallest codepoints of the lengths from two on. -/
def minCp : Nat → Nat
  | 0 => 0x80
  | 1 => 0x800
  | 2 => 0x10000
  | 3 => 0x200000
  | _ => 0x4000000

/-- The end and a valid codepoint; nothing for a byte outside the string or a failed assertion. -/
def modUtf8Codepoint (s : List UInt8) (n : Nat) : Option (Nat × Option Nat) :=
  if n = 0 then some (0, none)
  else do
    let byte := (← s[0]?).toNat
    if byte = 0 then return (0, none)
    if byte < 0x80 then return (1, some byte)
    if byte ≥ 0xFE then return (1, none)
    if byte &&& 0x40 = 0 then return (1, none)
    let (len, mask) := leadLoop byte 8 0
    if ¬ (1 < len ∧ len < 7) then none else
    let (stop, cp) ← contLoop s n (len - 1) 1 (byte &&& (mask - 1))
    match cp with
    | none => return (stop, none)
    | some cp =>
      if ¬ isValidCodepoint cp then return (stop, none)
      if cp < minCp (len - 2) ∧ ¬ (cp = 0 ∧ len = 2) then return (stop, none)
      return (stop, some cp)

def IsCont (byte : UInt8) : Bool := 0x80 ≤ byte.toNat && byte.toNat < 0xC0

/-- The number of continuation bytes that a first byte asks for. -/
def expected (byte : UInt8) : Nat :=
  if byte.toNat < 0xC0 then 0
  else if byte.toNat < 0xE0 then 1
  else if byte.toNat < 0xF0 then 2
  else if byte.toNat < 0xF8 then 3
  else if byte.toNat < 0xFC then 4
  else if byte.toNat < 0xFE then 5
  else 0

def conts (first : UInt8) (rest : List UInt8) : List UInt8 :=
  (rest.take (expected first)).takeWhile IsCont

/-- Where a sequence ends by the header of `mod_utf8_codepoint`. -/
def headerEnd : List UInt8 → Nat
  | [] => 0
  | first :: rest => if first = 0 then 0 else 1 + (conts first rest).length

/-- The bytes that may be read are there: up to the limit, or up to a zero byte. -/
def Readable (s : List UInt8) (n : Nat) : Prop := ∀ i < n, i < s.length ∨ 0 ∈ s.take i

theorem or_low {a i y} (small : y < 2 ^ i) : (a <<< i) ||| y = a * 2 ^ i + y := by
  rw [← shiftLeft_add_eq_or_of_lt small, shiftLeft_eq]

theorem lead_or (a i x) : a <<< i ||| (x &&& (2 ^ i - 1)) = a * 2 ^ i + x % 2 ^ i := by
  rw [and_two_pow_sub_one_eq_mod]
  exact or_low (mod_lt _ (Nat.two_pow_pos i))

/-- The encoder by division. -/
theorem modUtf8Encode_eq (cp) : modUtf8Encode cp =
      if ¬ isValidCodepoint cp then none
      else if cp > 0 ∧ cp ≤ 0x7F then some [.ofNat cp]
      else if cp ≤ 0x7FF then some [.ofNat (0xC0 + cp / 64), .ofNat (0x80 + cp % 64)]
      else if cp ≤ 0xFFFF then some [.ofNat (0xE0 + cp / 4096),
        .ofNat (0x80 + cp / 64 % 64), .ofNat (0x80 + cp % 64)]
      else some [.ofNat (0xF0 + cp / 262144), .ofNat (0x80 + cp / 4096 % 64),
        .ofNat (0x80 + cp / 64 % 64), .ofNat (0x80 + cp % 64)] := by
  have low : 0x80 ||| (cp &&& 0x3F) = 0x80 + cp % 64 := lead_or 2 6 cp
  have middle : 0x80 ||| ((cp >>> 6) &&& 0x3F) = 0x80 + cp / 64 % 64 := by
    rw [shiftRight_eq_div_pow]
    exact lead_or 2 6 _
  have high : 0x80 ||| ((cp >>> 12) &&& 0x3F) = 0x80 + cp / 4096 % 64 := by
    rw [shiftRight_eq_div_pow]
    exact lead_or 2 6 _
  have ascii : cp &&& 0x7F = cp % 128 := and_two_pow_sub_one_eq_mod cp 7
  have two : 0xC0 ||| ((cp >>> 6) &&& 0x1F) = 0xC0 + cp / 64 % 32 := by
    rw [shiftRight_eq_div_pow]
    exact lead_or 6 5 _
  have three : 0xE0 ||| ((cp >>> 12) &&& 0x0F) = 0xE0 + cp / 4096 % 16 := by
    rw [shiftRight_eq_div_pow]
    exact lead_or 14 4 _
  have four : 0xF0 ||| ((cp >>> 18) &&& 0x07) = 0xF0 + cp / 262144 % 8 := by
    rw [shiftRight_eq_div_pow]
    exact lead_or 30 3 _
  rw [modUtf8Encode, low, middle, high, ascii, two, three, four]
  -- In each range the leading bits are not cut.
  split_ifs with valid one twoBytes threeBytes
  · rw [mod_eq_of_lt (by omega)]
  · rw [mod_eq_of_lt (show cp / 64 < 32 by omega)]
  · rw [mod_eq_of_lt (show cp / 4096 < 16 by omega)]
  · have bounded : cp ≤ 0x10FFFF := by
      by_contra large
      simp [isValidCodepoint, show cp > 0x10FFFF by omega] at valid
    rw [mod_eq_of_lt (show cp / 262144 < 8 by omega)]
  · rfl

variable {s : List UInt8} {n : Nat}

def seqValue (first : UInt8) (c : List UInt8) : Nat :=
  c.foldl (fun value byte => value * 64 + byte.toNat % 64) (first.toNat % 2 ^ (6 - c.length))

/-- What a string decodes to, by its first byte and the continuation bytes. -/
def decoded : List UInt8 → Option Nat
  | [] => none
  | first :: rest =>
    let c := conts first rest
    if first = 0 then none
    else if first.toNat < 0x80 then some first.toNat
    else if expected first = 0 ∨ c.length ≠ expected first then none
    else if ¬ isValidCodepoint (seqValue first c) then none
    else if seqValue first c < minCp (c.length - 1) ∧
      ¬ (seqValue first c = 0 ∧ c.length = 1) then none
    else some (seqValue first c)

theorem isCont_iff (byte) : byte.toNat &&& 0xC0 = 0x80 ↔ IsCont byte := by
  have all : ∀ b < 256, b &&& 0xC0 = 0x80 ↔ 0x80 ≤ b ∧ b < 0xC0 := by decide +kernel
  rw [all _ byte.toNat_lt, IsCont, Bool.and_eq_true, decide_eq_true_eq, decide_eq_true_eq]

/-- The loop over the continuation bytes takes those that are there. -/
theorem contLoop_spec {left i cp}
    (inside : ∀ j, i ≤ j → j < n → (∀ byte ∈ (s.take j).drop i, IsCont byte) → j < s.length) :
    let c := (((s.take n).drop i).take left).takeWhile IsCont
    contLoop s n left i cp =
      some (i + c.length,
        if c.length = left then some (c.foldl (fun value byte => value * 64 + byte.toNat % 64) cp)
            else none) := by
  induction left generalizing i cp with
  | zero => simp [contLoop]
  | succ left ih =>
    rw [contLoop]
    by_cases within : i < n
    · have present : i < s.length := inside i (le_refl i) within (by simp)
      have split : (s.take n).drop i = s[i] :: (s.take n).drop (i + 1) := by
        rw [drop_eq_getElem_cons (by rw [length_take]; omega), getElem_take]
      simp only [if_pos within, List.getElem?_eq_getElem present, map_some, bind_eq_bind,
        bind_some, split, take_succ_cons, ne_eq, isCont_iff]
      by_cases cont : IsCont s[i] = true
      · have later := @ih (i + 1) (cp * 64 + s[i].toNat % 64) (by
          intro j after before all
          refine inside j (by omega) before ?_
          intro byte mem
          rw [drop_eq_getElem_cons (by rw [length_take]; omega), getElem_take] at mem
          rcases mem_cons.mp mem with rfl | mem
          · exact cont
          · exact all byte mem)
        have next : (cp <<< 6) ||| (s[i].toNat &&& 0x3F) = cp * 64 + s[i].toNat % 64 :=
          lead_or cp 6 _
        simp only [cont, not_true_eq_false, if_false, next, later,
          takeWhile_cons, if_true, length_cons,
          foldl_cons, add_right_cancel_iff, add_assoc, add_comm 1]
      · simp [cont]
    · -- Past the limit a zero byte stands for what is not read.
      have none_left : (s.take n).drop i = [] := drop_eq_nil_of_le (by rw [length_take]; omega)
      simp [if_neg within, none_left]

theorem firstBit_iff {byte} (lower : 0x80 ≤ byte) (upper : byte < 0xFE) :
    byte &&& 0x40 = 0 ↔ byte < 0xC0 := by
  have all : ∀ b < 0xFE, 0x80 ≤ b → (b &&& 0x40 = 0 ↔ b < 0xC0) := by decide +kernel
  exact all byte upper lower

theorem leadLoop_eq {first} (lower : 0xC0 ≤ first.toNat) (upper : first.toNat < 0xFE) :
    leadLoop first.toNat 8 0 = (expected first + 1, 2 ^ (6 - expected first)) ∧ 0 < expected first ∧
      expected first < 6 := by
  have all : ∀ b < 256, 0xC0 ≤ b → b < 0xFE →
      leadLoop b 8 0 = (expected (.ofNat b) + 1, 2 ^ (6 - expected (.ofNat b))) ∧
        0 < expected (.ofNat b) ∧ expected (.ofNat b) < 6 := by decide +kernel
  simpa using all first.toNat first.toNat_lt lower upper

/-- A string decodes as described, and no byte outside the limit is read. -/
theorem modUtf8Codepoint_eq (readable : Readable s n) :
    modUtf8Codepoint s n = some (headerEnd (s.take n), decoded (s.take n)) := by
  rw [modUtf8Codepoint]
  by_cases empty : n = 0
  · simp [empty, headerEnd, decoded]
  have start : 0 < s.length := (readable 0 (by omega)).resolve_right (by simp)
  obtain ⟨first, rest, rfl⟩ := exists_cons_of_ne_nil (length_pos_iff.mp start)
  obtain ⟨m, rfl⟩ : ∃ m, n = m + 1 := ⟨n - 1, by omega⟩
  rw [if_neg empty]
  simp only [getElem?_cons_zero, bind_eq_bind, bind_some, take_succ_cons, headerEnd, decoded]
  by_cases zero : first = 0
  · simp [zero]
  have nonzero : first.toNat ≠ 0 := fun same => zero (UInt8.toNat_inj.mp same)
  simp only [if_neg nonzero, if_neg zero]
  by_cases ascii : first.toNat < 0x80
  · have alone : expected first = 0 := by simp [expected, show first.toNat < 0xC0 by omega]
    simp [ascii, conts, alone]
  rw [if_neg ascii, if_neg ascii]
  by_cases lead : 0xC0 ≤ first.toNat ∧ first.toNat < 0xFE
  · obtain ⟨loop, some_expected, few⟩ := leadLoop_eq lead.1 lead.2
    have body := @contLoop_spec (first :: rest) (m + 1) (expected first) 1
        (first.toNat % 2 ^ (6 - expected first)) (by
      intro j after before all
      -- Had the string ended, a zero byte would stand among the bytes read.
      refine (readable j before).resolve_right fun zeroByte => ?_
      obtain ⟨k, rfl⟩ : ∃ k, j = k + 1 := ⟨j - 1, by omega⟩
      rcases mem_cons.mp zeroByte with same | inRest
      · exact zero same.symm
      · exact absurd (all 0 (by simpa using inRest)) (by decide))
    have setBit : first.toNat &&& 0x40 ≠ 0 := by
      rw [Ne, firstBit_iff (by omega) lead.2]
      omega
    rw [if_neg (by omega), if_neg setBit, loop]
    simp only [Nat.add_sub_cancel, show 1 < expected first + 1 ∧ expected first + 1 < 7 by omega,
      not_true_eq_false, if_false, and_two_pow_sub_one_eq_mod, body, take_succ_cons, drop_succ_cons,
      drop_zero, and_self, bind_some]
    rw [← conts]
    by_cases full : (conts first (rest.take m)).length = expected first
    · simp only [full, if_true, ne_eq, not_true_eq_false, or_false,
        pos_iff_ne_zero.mp some_expected, if_false,
        seqValue, show expected first + 1 - 2 = expected first - 1 by omega,
        show expected first + 1 = 2 ↔ expected first = 1 by omega]
      split_ifs <;> rfl
    · simp [full]
  have alone : expected first = 0 := by
    rw [expected]
    split_ifs <;> omega
  have refused : ¬ first.toNat ≥ 0xFE → first.toNat &&& 0x40 = 0 := fun small =>
    (firstBit_iff (by omega) (by omega)).mpr (by omega)
  by_cases high : first.toNat ≥ 0xFE
  · simp [high, conts, alone]
  · simp [high, refused high, conts, alone]

theorem isValidCodepoint_le {cp} (valid : isValidCodepoint cp) : cp ≤ 0x10FFFF := by
  by_contra large
  simp [isValidCodepoint, show cp > 0x10FFFF by omega] at valid

theorem ofNat_eq_iff {x byte} (small : x < 256) : UInt8.ofNat x = byte ↔ x = byte.toNat := by
  rw [← UInt8.toNat_inj, UInt8.toNat_ofNat', mod_eq_of_lt small]

theorem expected_iff (byte) : (expected byte = 1 ↔ 0xC0 ≤ byte.toNat ∧ byte.toNat < 0xE0) ∧
      (expected byte = 2 ↔ 0xE0 ≤ byte.toNat ∧ byte.toNat < 0xF0) ∧
      (expected byte = 3 ↔ 0xF0 ≤ byte.toNat ∧ byte.toNat < 0xF8) := by
  rw [expected]
  split_ifs
  all_goals simp
  all_goals omega

/-- The encoder gives these bytes exactly if they decode to the codepoint. -/
theorem encode_iff {cp first c} (cont : ∀ byte ∈ c, IsCont byte) (multi : 0x80 ≤ first.toNat) :
    modUtf8Encode cp = some (first :: c) ↔
      ¬ (expected first = 0 ∨ c.length ≠ expected first) ∧ isValidCodepoint cp ∧
        ¬ (cp < minCp (c.length - 1) ∧ ¬ (cp = 0 ∧ c.length = 1)) ∧ cp = seqValue first c := by
  rw [modUtf8Encode_eq]
  by_cases valid : isValidCodepoint cp = true
  · have bounded := isValidCodepoint_le valid
    obtain ⟨one, two, three⟩ := expected_iff first
    simp only [valid, not_true_eq_false, if_false, true_and]
    have isCont : ∀ byte ∈ c, 0x80 ≤ byte.toNat ∧ byte.toNat < 0xC0 := by simpa [IsCont] using cont
    -- The range of the codepoint decides the length; another length gives no equation.
    match c with
    | [] =>
      split_ifs
      all_goals simp [← UInt8.toNat_inj]
      all_goals omega
    | [b₁] =>
      have h₁ := isCont b₁ (by simp)
      split_ifs
      all_goals simp [← UInt8.toNat_inj, minCp, seqValue]
      all_goals omega
    | [b₁, b₂] =>
      have h₁ := isCont b₁ (by simp)
      have h₂ := isCont b₂ (by simp)
      split_ifs
      all_goals simp [← UInt8.toNat_inj, minCp, seqValue]
      all_goals omega
    | [b₁, b₂, b₃] =>
      have h₁ := isCont b₁ (by simp)
      have h₂ := isCont b₂ (by simp)
      have h₃ := isCont b₃ (by simp)
      split_ifs
      all_goals simp [← UInt8.toNat_inj, minCp, seqValue]
      all_goals omega
    | b₁ :: b₂ :: b₃ :: b₄ :: rest =>
      have large : 0x200000 ≤ minCp (rest.length + 3) := by
        rcases rest with _ | ⟨_, rest⟩ <;> simp [minCp]
      split_ifs
      all_goals simp [add_assoc]
      all_goals omega
  · simp [valid]

/-- A string decodes to a codepoint exactly if it starts with the encoding. -/
theorem decoded_iff (bytes cp) : decoded bytes = some cp ↔
    modUtf8Encode cp = some (bytes.take (headerEnd bytes)) := by
  have nonempty : modUtf8Encode cp ≠ some [] := by
    rw [modUtf8Encode]
    split_ifs <;> simp
  cases bytes with
  | nil => simp [decoded, headerEnd, nonempty]
  | cons first rest =>
    by_cases zero : first = 0
    · simp [decoded, headerEnd, zero, nonempty]
    have pos : first.toNat ≠ 0 := fun same => zero (UInt8.toNat_inj.mp same)
    -- The bytes up to the end of a sequence.
    have take_headerEnd : (first :: rest).take (headerEnd (first :: rest)) =
        first :: conts first rest := by
      have pre : conts first rest <+: rest :=
        IsPrefix.trans ⟨_, takeWhile_append_dropWhile⟩ ⟨_, take_append_drop _ _⟩
      rw [headerEnd, if_neg zero, add_comm, take_succ_cons, ← prefix_iff_eq_take.mp pre]
    rw [take_headerEnd, decoded, if_neg zero]
    by_cases ascii : first.toNat < 0x80
    · have alone : conts first rest =
        [] := by simp [conts, expected, show first.toNat < 0xC0 by omega]
      have all : ∀ b < 0x80, isValidCodepoint b := by decide +kernel
      rw [if_pos ascii, alone, modUtf8Encode_eq]
      split_ifs with valid one
      · simp only [Option.some.injEq, List.cons.injEq, and_true,
          ofNat_eq_iff (show cp < 256 by omega)]
        omega
      · simp
        omega
      · simp
        omega
      · simp
        omega
      · simp
        exact fun same => valid (same ▸ all _ ascii)
    have cont : ∀ byte ∈ conts first rest, IsCont byte := fun byte mem => mem_takeWhile_imp mem
    rw [if_neg ascii, encode_iff cont (by omega)]
    simp only [ite_none_left_eq_some, Option.some.injEq, not_not]
    constructor
    · rintro ⟨complete, valid, minimal, rfl⟩
      exact ⟨complete, valid, minimal, rfl⟩
    · rintro ⟨complete, valid, minimal, rfl⟩
      exact ⟨complete, valid, minimal, rfl⟩

/-- Decoding returns a codepoint exactly if the bytes before the end encode it; the end is where the
header says, and no byte is read outside of the limit. -/
theorem modUtf8Codepoint_inverts_encode (s : List UInt8) (n : Nat) (readable : Readable s n) :
    ∃ result, modUtf8Codepoint s n = some (headerEnd (s.take n), result) ∧
      ∀ cp, result = some cp ↔ modUtf8Encode cp = some ((s.take n).take (headerEnd (s.take n))) :=
  ⟨decoded (s.take n), modUtf8Codepoint_eq readable, decoded_iff (s.take n)⟩

/-- The two bytes of U+00E9 are read as one sequence. -/
theorem modUtf8Codepoint_eAcute :
    ∃ result, modUtf8Codepoint [0xC3, 0xA9] 2 = some (headerEnd [0xC3, 0xA9], result) ∧
      ∀ cp, result = some cp ↔ modUtf8Encode cp =
        some ([0xC3, 0xA9].take (headerEnd [0xC3, 0xA9])) :=
  modUtf8Codepoint_inverts_encode [0xC3, 0xA9] 2 fun _ inside => .inl inside

end Qemu.Unicode
