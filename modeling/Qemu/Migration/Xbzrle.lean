import Qemu.Lib.ByteWord

/-! The XBZRLE codec of `migration/xbzrle.c` and `util/cutils.c`. -/

namespace Qemu.Xbzrle

/-- A byte buffer addressed from its first byte. -/
abbrev Buffer := Nat → UInt8

/-- An output buffer; unwritten positions hold nothing. -/
abbrev Output := Nat → Option UInt8

/-- The largest number a two-byte length can carry. -/
def maxSmall : Nat := 0x3fff

/-- The width of a host word in bytes, `sizeof(long)` of a 64-bit host. -/
def wordBytes : Nat := 8

/-- Asserts that the number has 14 bits. -/
def uleb128EncodeSmall (n : Nat) : Option (List UInt8) :=
  if n ≤ maxSmall then
    if n < 0x80 then some [UInt8.ofNat n]
    else some [UInt8.ofNat (n &&& 0x7f) ||| 0x80, UInt8.ofNat (n >>> 7)]
  else none

/-- The number and the bytes used, or nothing beyond 14 bits. -/
def uleb128DecodeSmall (input : Buffer) : Option (Nat × Nat) :=
  if input 0 &&& 0x80 = 0 then some (1, (input 0).toNat)
  else if input 1 &&& 0x80 ≠ 0 then none
  else some (2, (input 0 &&& 0x7f).toNat ||| ((input 1).toNat <<< 7))

/-- The buffer seen through a pointer that was advanced by `offset`. -/
def advance (buffer : Buffer) (offset : Nat) : Buffer := fun k => buffer (offset + k)

/-- The host word at a position, little-endian. -/
def wordAt (buffer : Buffer) (i : Nat) : BitVec 64 :=
  BitVec.ofNat 64 (ByteWord.ofBytes wordBytes fun k => buffer (i + k))

/-- Store bytes at a position, one by one or by `memcpy`. -/
def writeBytes (dst : Output) (at_ : Nat) (bytes : List UInt8) : Output := fun k =>
  if k < at_ then dst k else
    match bytes[k - at_]? with
    | some byte => some byte
    | none => dst k

/-- The bytes a `memcpy` of `count` bytes reads. -/
def bytesFrom (buffer : Buffer) (start count : Nat) : List UInt8 :=
  (List.range count).map fun k => buffer (start + k)

variable (old new : Buffer)

/-- Bytes skipped one at a time up to a word boundary. -/
def skipByte (agree : Bool) : Nat → Nat → Nat → Nat × Nat × Nat
  | 0, i, run => (0, i, run)
  | res + 1, i, run =>
    if (old i == new i) = agree then skipByte agree res (i + 1) (run + 1) else (res + 1, i, run)

/-- Equal words skipped by the zero-run scan, at most `fuel` of them. -/
def skipEqualWords (slen : Nat) : Nat → Nat → Nat → Nat × Nat
  | 0, i, run => (i, run)
  | fuel + 1, i, run =>
    if i < slen ∧ wordAt old i = wordAt new i then
      skipEqualWords slen fuel (i + wordBytes) (run + wordBytes)
    else (i, run)

/-- Equal bytes skipped after the last equal word, at most `fuel` of them. -/
def skipEqualRest (slen : Nat) : Nat → Nat → Nat → Nat × Nat
  | 0, i, run => (i, run)
  | fuel + 1, i, run =>
    if i < slen ∧ old i = new i then skipEqualRest slen fuel (i + 1) (run + 1) else (i, run)

/-- The zero run from `i`: its end and the grown `zrun_len`. -/
def scanZrun (slen i zrunLen : Nat) : Nat × Nat :=
  -- Bytes up to the word boundary come first, and words follow only when that boundary is reached.
  let (res, i, zrunLen) := skipByte old new true ((slen - i) % wordBytes) i zrunLen
  if res = 0 then
    let (i, zrunLen) := skipEqualWords old new slen slen i zrunLen
    skipEqualRest old new slen slen i zrunLen
  else (i, zrunLen)

/-- The repeated byte one, `0x0101010101010101`. -/
def onesMask : BitVec 64 := 0x0101010101010101#64

/-- The zero-byte test: `(xor - mask) & ~xor & (mask << 7)`. -/
def hasZeroByte (xor : BitVec 64) : Bool := (xor - onesMask) &&& ~~~xor &&& (onesMask <<< 7) ≠ 0

/-- Different bytes in the word that ends a nonzero run, at most `fuel`. -/
def skipUnequalRest : Nat → Nat → Nat → Nat × Nat
  | 0, i, run => (i, run)
  | fuel + 1, i, run => if old i ≠ new i then skipUnequalRest fuel (i + 1) (run + 1) else (i, run)

/-- Words with no equal byte, and the partial word at the end. -/
def skipUnequalWords (slen : Nat) : Nat → Nat → Nat → Nat × Nat
  | 0, i, run => (i, run)
  | fuel + 1, i, run =>
    if i < slen then
      if hasZeroByte (wordAt old i ^^^ wordAt new i) then
        -- The end of the run lies within this word, so its bytes are counted one by one.
        skipUnequalRest old new wordBytes i run
      else skipUnequalWords slen fuel (i + wordBytes) (run + wordBytes)
    else (i, run)

/-- The nonzero run from `i`: its end and `nzrun_len`. -/
def scanNzrun (slen i nzrunLen : Nat) : Nat × Nat :=
  let (res, i, nzrunLen) := skipByte old new false ((slen - i) % wordBytes) i nzrunLen
  if res = 0 then skipUnequalWords old new slen slen i nzrunLen else (i, nzrunLen)

/-- The loop of `xbzrle_encode_buffer` from position `i` with `d` bytes written: the returned
length, or `-1` on overflow, and the output buffer; a failed assertion has no answer. `slen` turns
are enough, as each consumes a byte. -/
def encodeLoop (slen dlen : Nat) : Nat → Nat → Nat → Output → Option (Int × Output)
  | 0, _, d, dst => some (d, dst)
  | fuel + 1, i, d, dst =>
    if i < slen then
      if d + 2 > dlen then some (-1, dst) else
      let (i, zrunLen) := scanZrun old new slen i 0
      -- An unchanged buffer needs no bytes at all.
      if zrunLen = slen then some (0, dst) else
      -- The last zero run is implied by the page length.
      if i = slen then some (d, dst) else do
      let zbytes ← uleb128EncodeSmall zrunLen
      let dst := writeBytes dst d zbytes
      let d := d + zbytes.length
      let nzrunStart := i
      if d + 2 > dlen then some (-1, dst) else
      let (i, nzrunLen) := scanNzrun old new slen i 0
      let nzbytes ← uleb128EncodeSmall nzrunLen
      let dst := writeBytes dst d nzbytes
      let d := d + nzbytes.length
      if d + nzrunLen > dlen then some (-1, dst) else
      let dst := writeBytes dst d (bytesFrom new nzrunStart nzrunLen)
      encodeLoop slen dlen fuel i (d + nzrunLen) dst
    else some (d, dst)

/-- The delta of `new` against `old`; the page is asserted to be of whole words. -/
def xbzrleEncodeBuffer (slen dlen : Nat) (dst : Output) : Option (Int × Output) :=
  if slen % wordBytes = 0 then encodeLoop old new slen dlen slen 0 0 dst else none

/-- Overwrite part of a buffer, as `memcpy(dst + d, src + i, count)` does. -/
def copyInto (dst : Buffer) (d : Nat) (src : Buffer) (i count : Nat) : Buffer := fun k =>
  if d ≤ k ∧ k < d + count then src (i + (k - d)) else dst k

/-- The loop of `xbzrle_decode_buffer` at source `i` and target `d`. -/
def decodeLoop (src : Buffer) (slen dlen : Nat) : Nat → Nat → Nat → Buffer → Int × Buffer
  | 0, _, d, dst => (d, dst)
  | fuel + 1, i, d, dst =>
    if i < slen then
      if slen - i < 2 then (-1, dst) else
      match uleb128DecodeSmall (advance src i) with
      | none => (-1, dst)
      | some (used, count) =>
        -- Only the first zero run may be empty.
        if i ≠ 0 ∧ count = 0 then (-1, dst) else
        let i := i + used
        let d := d + count
        if d > dlen then (-1, dst) else
        if slen - i < 2 then (-1, dst) else
        match uleb128DecodeSmall (advance src i) with
        | none => (-1, dst)
        | some (used, count) =>
          if count = 0 then (-1, dst) else
          let i := i + used
          if d + count > dlen ∨ i + count > slen then (-1, dst) else
          decodeLoop src slen dlen fuel (i + count) (d + count) (copyInto dst d src i count)
    else (d, dst)

/-- The decoder writes `src[0..slen)` over `dst`: the end, or `-1`. -/
def xbzrleDecodeBuffer (src : Buffer) (slen : Nat) (dst : Buffer) (dlen : Nat) : Int × Buffer :=
  decodeLoop src slen dlen slen 0 0 dst

end Qemu.Xbzrle
