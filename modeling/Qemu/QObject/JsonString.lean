import Qemu.Util.Unicode

/-! Strings in JSON: `parse_string` of `qobject/json-parser.c` reads back what `to_json` of
`qobject/qjson.c` writes. -/

namespace Qemu.Json

open List Qemu.Unicode

def quote : UInt8 := 34
def percent : UInt8 := 37
def backslash : UInt8 := 92
def letterU : UInt8 := 117

/-- The characters after a backslash, and what they stand for. -/
def escapes : List (UInt8 × UInt8) :=
  [(34, 34), (39, 39), (92, 92), (47, 47), (98, 8), (102, 12), (110, 10), (114, 13), (116, 9)]

def hexDigit (digit : Nat) : UInt8 := .ofNat (if digit < 10 then 48 + digit else 55 + digit)

/-- The format `\u%04X`, for a number of sixteen bits. -/
def escapeUnicode (n : Nat) : List UInt8 :=
  [backslash, letterU, hexDigit (n / 4096), hexDigit (n / 256 % 16),
    hexDigit (n / 16 % 16), hexDigit (n % 16)]

/-- What `to_json` appends for a codepoint, or for an invalid sequence. -/
def toJsonChar (cp : Option Nat) : List UInt8 :=
  match cp with
  | some 34 => [backslash, 34]
  | some 92 => [backslash, 92]
  | some 8 => [backslash, 98]
  | some 12 => [backslash, 102]
  | some 10 => [backslash, 110]
  | some 13 => [backslash, 114]
  | some 9 => [backslash, 116]
  | _ =>
    let cp := cp.getD 0xFFFD
    if cp > 0xFFFF then
      escapeUnicode (0xD800 + ((cp - 0x10000) >>> 10)) ++
        escapeUnicode (0xDC00 + ((cp - 0x10000) &&& 0x3FF))
    else if cp < 0x20 ∨ cp ≥ 0x7F then escapeUnicode cp
    else [.ofNat cp]

/-- The codepoints that a loop over `mod_utf8_codepoint` finds in a string, with nothing for an
invalid sequence. -/
def codepoints : Nat → List UInt8 → Option (List (Option Nat))
  | 0, _ => none
  | _ + 1, [] => some []
  | turns + 1, s => do
    let (stop, cp) ← modUtf8Codepoint (s ++ [0]) 6
    return cp :: (← codepoints turns (s.drop stop))

/-- `to_json` of a string. -/
def toJsonString (s : List UInt8) : Option (List UInt8) := do
  return quote :: (← codepoints (s.length + 1) s).flatMap toJsonChar ++ [quote]

inductive StringError where
  /-- "%.*s is not a valid Unicode character". -/
  | notUnicode (text : List UInt8)
  /-- "invalid escape sequence in string". -/
  | badEscape
  /-- "can't interpolate into string". -/
  | interpolation
  /-- "invalid UTF-8 sequence in string". -/
  | notUtf8

def xdigit (c : UInt8) : Option Nat :=
  if 48 ≤ c ∧ c ≤ 57 then some (c.toNat - 48)
  else if 97 ≤ c ∧ c ≤ 102 then some (10 + c.toNat - 97)
  else if 65 ≤ c ∧ c ≤ 70 then some (10 + c.toNat - 65)
  else none

def cvt4hex (s : List UInt8) : Option Nat :=
  [0, 1, 2, 3].foldlM (fun cp i => do return cp <<< 4 ||| (← xdigit (← s[i]?))) 0

/-- The codepoint after `\u`, and how far to go. -/
def unicodeEscape (ptr : List UInt8) : Option Nat × Nat :=
  match cvt4hex ptr with
  | none => (none, 4)
  | some cp =>
    if 0xD800 ≤ cp ∧ cp ≤ 0xDBFF ∧ ptr[4]? = some backslash ∧ ptr[5]? = some letterU then
      match cvt4hex (ptr.drop 6) with
      | none => (none, 4)
      | some trailing =>
        if 0xDC00 ≤ trailing ∧ trailing ≤ 0xDFFF then
          (some (0x10000 + ((cp &&& 0x3FF) <<< 10) ||| (trailing &&& 0x3FF)), 10)
        else (none, 4)
    else (some cp, 4)

/-- The loop of `parse_string`, with what is collected so far; nothing if an assertion fails. -/
def parseChars (ap : Bool) (quote : UInt8) : Nat → List UInt8 → List UInt8 →
    Option (Except StringError (List UInt8))
  | 0, _, _ => none
  | _ + 1, _, [] => none
  | turns + 1, str, c :: rest =>
    if c = quote then some (.ok str)
    else if c = backslash then
      match rest with
      | [] => some (.error .badEscape)
      | e :: ptr =>
        match escapes.lookup e with
        | some char => parseChars ap quote turns (str ++ [char]) ptr
        | none =>
          if e ≠ letterU then some (.error .badEscape)
          else match unicodeEscape ptr with
            | (cp, length) => match cp.bind modUtf8Encode with
              | none => some (.error (.notUnicode (backslash :: e :: ptr.take length)))
              | some utf8 => parseChars ap quote turns (str ++ utf8) (ptr.drop length)
    else if c = percent ∧ ap ∧ rest.head? ≠ some percent then some (.error .interpolation)
    else do
      -- Of two percent signs the second one is read.
      let ptr := if c = percent ∧ ap then rest else c :: rest
      let (stop, cp) ← modUtf8Codepoint (ptr ++ [0]) 6
      match cp with
      | none => return .error .notUtf8
      | some cp => parseChars ap quote turns (str ++ (← modUtf8Encode cp)) (ptr.drop stop)

/-- `parse_string`; the quotes are asserted. -/
def parseString (ap : Bool) : List UInt8 → Option (Except StringError (List UInt8))
  | [] => none
  | c :: ptr => if c = quote ∨ c = 39 then parseChars ap c (ptr.length + 1) [] ptr else none

/-- The bytes of a codepoint; an invalid sequence becomes the replacement character. -/
def utf8 (cp : Option Nat) : List UInt8 := (modUtf8Encode (cp.getD 0xFFFD)).getD []

theorem xdigit_hexDigit : ∀ digit < 16, xdigit (hexDigit digit) = some digit := by decide

theorem cvt4hex_hexDigit {n} (small : n < 0x10000) (rest) :
    cvt4hex ((escapeUnicode n).drop 2 ++ rest) = some n := by
  have digit (a m : Nat) : a <<< 4 ||| m % 16 = a * 16 + m % 16 := or_low (Nat.mod_lt m (by decide))
  have top := xdigit_hexDigit (n / 4096) (by omega)
  have rest (m : Nat) := xdigit_hexDigit (m % 16) (Nat.mod_lt m (by decide))
  simp [cvt4hex, escapeUnicode, top, rest, digit]
  omega

theorem unicodeEscape_bmp {n} (small : n < 0x10000) (plain : ¬ (0xD800 ≤ n ∧ n ≤ 0xDBFF)) (rest) :
    unicodeEscape ((escapeUnicode n).drop 2 ++ rest) = (some n, 4) := by
  rw [unicodeEscape, cvt4hex_hexDigit small]
  simp only
  rw [if_neg (by tauto)]

/-- An escaped surrogate pair is read back as one code point. -/
theorem unicodeEscape_pair {v} (small : v < 0x100000) (rest) :
    unicodeEscape ((escapeUnicode (0xD800 + (v >>> 10))).drop 2 ++
      (escapeUnicode (0xDC00 + (v &&& 0x3FF)) ++ rest)) = (some (0x10000 + v), 10) := by
  have low (a : Nat) : a &&& 0x3FF = a % 1024 := Nat.and_two_pow_sub_one_eq_mod a 10
  have second : drop 6 ((escapeUnicode (0xD800 + v / 1024)).drop 2 ++
    (escapeUnicode (0xDC00 + v % 1024) ++ rest)) =
      (escapeUnicode (0xDC00 + v % 1024)).drop 2 ++ rest := rfl
  -- The two halves of ten bits fill the place below the upper bits.
  have joined : 0x10000 + ((0xD800 + v / 1024) % 1024) <<< 10 |||
      (0xDC00 + v % 1024) % 1024 = 0x10000 + v := by
    have := @or_low (64 + (0xD800 + v / 1024) % 1024) 10 ((0xDC00 + v % 1024) % 1024) (by omega)
    rw [Nat.shiftLeft_eq] at this ⊢
    rw [show 0x10000 + (0xD800 + v / 1024) % 1024 * 2 ^ 10 =
      (64 + (0xD800 + v / 1024) % 1024) * 2 ^ 10 by omega, this]
    omega
  rw [Nat.shiftRight_eq_div_pow, low, unicodeEscape, cvt4hex_hexDigit (by omega)]
  simp only
  rw [if_pos ⟨by omega, by omega, rfl, rfl⟩, second, cvt4hex_hexDigit (by omega)]
  simp only
  rw [if_pos (by omega), low, low, joined]

theorem parseChars_unicode {ptr c length bytes} (read : unicodeEscape ptr = (some c, length))
    (encoded : modUtf8Encode c = some bytes) (turns str) :
    parseChars false quote (turns + 1) str (backslash :: letterU :: ptr) =
      parseChars false quote turns (str ++ bytes) (ptr.drop length) := by
  have other : backslash ≠ quote := by decide
  have unicode : escapes.lookup letterU = none := by decide
  simp [parseChars, other, unicode, read, encoded]

theorem parseChars_plain {c} (lower : 0x20 ≤ c) (upper : c < 0x7F)
    (noQuote : c ≠ 34) (noBackslash : c ≠ 92)
    (turns str rest) : parseChars false quote (turns + 1) str (.ofNat c :: rest) =
      parseChars false quote turns (str ++ [.ofNat c]) rest := by
  have all : ∀ c < 0x7F, ¬ (0x20 ≤ c ∧ c ≠ 34 ∧ c ≠ 92) ∨ UInt8.ofNat c ≠ quote ∧
    UInt8.ofNat c ≠ backslash ∧
      (UInt8.ofNat c).toNat = c ∧ modUtf8Encode c = some [.ofNat c] := by decide +kernel
  obtain ⟨noQuote, noBackslash, value, encoded⟩ := (all c upper).resolve_left (by tauto)
  have read : modUtf8Codepoint (.ofNat c :: (rest ++ [0])) 6 = some (1, some c) := by
    simp [modUtf8Codepoint, value, show c ≠ 0 by omega, show c < 128 by omega]
  simp [parseChars, noQuote, noBackslash, read, encoded]

/-- What is written for a codepoint is read back as its bytes. -/
theorem parseChars_toJsonChar {cp} (valid : ∀ c, cp = some c → isValidCodepoint c)
    (turns str rest) : parseChars false quote (turns + 1) str (toJsonChar cp ++ rest) =
      parseChars false quote turns (str ++ utf8 cp) rest := by
  have valid : isValidCodepoint (cp.getD 0xFFFD) := by
    cases cp with
    | none => rfl
    | some c => exact valid c rfl
  have bounded := isValidCodepoint_le valid
  obtain ⟨bytes, encoded⟩ : ∃ bytes, modUtf8Encode (cp.getD 0xFFFD) = some bytes := by
    rw [modUtf8Encode, if_neg (by simpa using valid)]
    split_ifs <;> exact ⟨_, rfl⟩
  unfold toJsonChar
  split
  -- Short escapes are read back by evaluation.
  any_goals rfl
  rename_i noQuote noBackslash _ _ _ _ _
  rw [utf8, encoded, Option.getD_some]
  dsimp only
  split_ifs with large special
  · -- A pair of surrogates.
    have read := @unicodeEscape_pair (cp.getD 0xFFFD - 0x10000) (by omega) rest
    rw [Nat.add_sub_cancel' (by omega)] at read
    rw [append_assoc]
    exact parseChars_unicode read encoded turns str
  · have plain : ¬ (0xD800 ≤ cp.getD 0xFFFD ∧ cp.getD 0xFFFD ≤ 0xDBFF) := by
      intro surrogate
      simp [isValidCodepoint] at valid
      omega
    exact parseChars_unicode (unicodeEscape_bmp (by omega) plain rest) encoded turns str
  · cases cp with
    | none => simp at special
    | some c =>
      rw [Option.getD_some] at special encoded ⊢
      obtain rfl : bytes = [.ofNat c] := by
        rw [modUtf8Encode_eq, if_neg (by simpa using valid), if_pos (by omega)] at encoded
        exact (Option.some.inj encoded).symm
      have noQuote : c ≠ 34 := fun same => noQuote (congrArg some same)
      have noBackslash : c ≠ 92 := fun same => noBackslash (congrArg some same)
      exact parseChars_plain (by omega) (by omega) noQuote noBackslash turns str rest

theorem headerEnd_terminated {first : UInt8} {rest : List UInt8} (nonzero : first ≠ 0) :
    ∃ length ≤ rest.length, length ≤ 5 ∧
        headerEnd ((first :: rest ++ [0]).take 6) = 1 + length := by
  have isFirst : conts first ((rest ++ [0]).take 5) <+: (rest ++ [0]).take 5 :=
    IsPrefix.trans ⟨_, takeWhile_append_dropWhile⟩ ⟨_, take_append_drop _ _⟩
  refine ⟨_, ?_, isFirst.length_le.trans (length_take_le 5 _), by simp [headerEnd, nonzero]⟩
  -- The zero byte at the end is no continuation byte.
  by_contra long
  have whole := (isFirst.trans ⟨_, take_append_drop _ _⟩).eq_of_length_le
    (by simpa [Nat.add_one_le_iff] using long)
  have zero : 0 ∈ conts first ((rest ++ [0]).take 5) := by simp [whole]
  exact absurd (mem_takeWhile_imp zero) (by decide)

/-- The codepoints of a string are valid, and spell it if every sequence is one. -/
theorem codepoints_spec {s : List UInt8} (noZero : 0 ∉ s) {turns} (enough : s.length < turns) :
    ∃ cps, codepoints turns s = some cps ∧ (∀ c, some c ∈ cps → isValidCodepoint c) ∧
      (none ∉ cps → cps.flatMap utf8 = s) := by
  induction turns generalizing s with
  | zero => contradiction
  | succ turns ih =>
    cases s with
    | nil => exact ⟨[], rfl, by simp, by simp⟩
    | cons first rest =>
      -- At most six bytes are looked at, and none after the zero byte.
      let seen := (first :: rest ++ [0]).take 6
      have readable : Readable (first :: rest ++ [0]) 6 := by
        intro i _
        by_cases inside : i < (first :: rest ++ [0]).length
        · exact .inl inside
        · rw [take_of_length_le (by omega)]
          simp
      have found : modUtf8Codepoint (first :: rest ++ [0]) 6 =
        some (headerEnd seen, decoded seen) := modUtf8Codepoint_eq readable
      obtain ⟨length, short, few, stop⟩ : ∃ length ≤ rest.length, length ≤ 5 ∧
        headerEnd seen = 1 + length :=
        headerEnd_terminated fun same => noZero (same ▸ mem_cons_self)
      have own : seen.take (headerEnd seen) = (first :: rest).take (headerEnd seen) := by
        rw [take_take, take_append_of_le_length (by simp; omega), min_eq_left (by omega)]
      have encodes {c} (isCp : decoded seen = some c) := (decoded_iff seen c).mp isCp
      obtain ⟨cps, later, valid, same⟩ := @ih ((first :: rest).drop (headerEnd seen))
        (fun mem => noZero (mem_of_mem_drop mem))
          (by simp only [length_drop, length_cons] at enough ⊢; omega)
      refine ⟨decoded seen :: cps, ?_, ?_, ?_⟩
      · simp only [codepoints, found, later, Option.bind_eq_bind, Option.bind_some]
        rfl
      · intro c mem
        rcases mem_cons.mp mem with isCp | mem
        · by_contra invalid
          have encoded := encodes isCp.symm
          rw [modUtf8Encode, if_pos invalid] at encoded
          contradiction
        · exact valid c mem
      · intro complete
        rw [mem_cons, not_or] at complete
        obtain ⟨c, isCp⟩ := Option.ne_none_iff_exists'.mp (Ne.symm complete.1)
        rw [flatMap_cons, same complete.2, isCp, utf8, Option.getD_some,
          encodes isCp, Option.getD_some, own, take_append_drop]

/-- The parser reads back what was escaped, code point by code point. -/
theorem parseChars_flatMap {cps : List (Option Nat)}
    (valid : ∀ c, some c ∈ cps → isValidCodepoint c) {turns}
    (enough : cps.length < turns) (str) :
    parseChars false quote turns str (cps.flatMap toJsonChar ++ [quote]) =
        some (.ok (str ++ cps.flatMap utf8)) := by
  induction cps generalizing turns str with
  | nil =>
    obtain ⟨turns, rfl⟩ := Nat.exists_eq_succ_of_ne_zero (Nat.ne_of_gt enough)
    simp [parseChars]
  | cons cp cps ih =>
    obtain ⟨turns, rfl⟩ :=
      Nat.exists_eq_succ_of_ne_zero (Nat.ne_of_gt (Nat.lt_of_le_of_lt (Nat.zero_le _) enough))
    rw [flatMap_cons, append_assoc, parseChars_toJsonChar fun c same =>
      valid c (same ▸ mem_cons_self)]
    rw [ih (fun c mem => valid c (mem_cons_of_mem _ mem)) (Nat.lt_of_succ_lt_succ enough),
      flatMap_cons, append_assoc]

theorem length_le_flatMap (cps : List (Option Nat)) :
    cps.length ≤ (cps.flatMap toJsonChar).length := by
  induction cps with
  | nil => simp
  | cons cp cps ih =>
    have : 0 < (toJsonChar cp).length := by
      unfold toJsonChar
      split
      any_goals simp
      split_ifs <;> simp [escapeUnicode]
    simp only [flatMap_cons, length_append, length_cons]
    omega

/-- What `to_json` writes for a string is parsed back: as the same string if it is modified UTF-8,
and otherwise with a replacement character for each invalid sequence. -/
theorem parseString_toJsonString (s : List UInt8) (noZero : 0 ∉ s) : ∃ cps json,
    codepoints (s.length + 1) s = some cps ∧ toJsonString s = some json ∧
    parseString false json = some (.ok (cps.flatMap utf8)) ∧
        (none ∉ cps → cps.flatMap utf8 = s) := by
  obtain ⟨cps, found, valid, same⟩ := codepoints_spec noZero (Nat.lt_succ_self s.length)
  refine ⟨cps, quote :: cps.flatMap toJsonChar ++ [quote],
    found, by simp [toJsonString, found], ?_, same⟩
  have enough := length_le_flatMap cps
  rw [cons_append, parseString, if_pos (.inl rfl)]
  refine parseChars_flatMap valid ?_ []
  rw [length_append, length_singleton]
  omega

/-- U+1F600, written as a surrogate pair, is read back; the invalid byte behind it is replaced. -/
theorem parseString_toJsonString_beyondBmp : ∃ json,
    toJsonString [0xF0, 0x9F, 0x98, 0x80, 0xFF] = some json ∧
      parseString false json = some (.ok [0xF0, 0x9F, 0x98, 0x80, 0xEF, 0xBF, 0xBD]) := by
  obtain ⟨cps, json, found, written, parsed, -⟩ :=
    parseString_toJsonString [0xF0, 0x9F, 0x98, 0x80, 0xFF] (by decide)
  have known : codepoints 6 [0xF0, 0x9F, 0x98, 0x80, 0xFF] = some [some 0x1F600, none] := by decide
  obtain rfl := Option.some.inj (found.symm.trans known)
  exact ⟨json, written, parsed⟩

end Qemu.Json
