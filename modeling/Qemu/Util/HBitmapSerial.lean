import Qemu.Lib.ByteWord
import Qemu.Util.HBitmapRuns

/-! Writing a hierarchical bitmap to bytes and loading it in chunks: serialization in
`util/hbitmap.c`. -/

namespace Qemu.Util

open WordBits ByteWord Pyramid

variable {host : HostLong}

/-- Bytes of a word, `sizeof(unsigned long)`. -/
def HostLong.bytesPerLong (host : HostLong) : Nat := host.bitsPerLong / 8

/-- Whether chunks can be aligned to 64 bits. -/
def hbitmapIsSerializable (hb : HBitmap host) : Bool := hb.granularity < 58

def hbitmapSerializationAlign (hb : HBitmap host) : Option Nat :=
  if hbitmapIsSerializable hb then some (64 <<< hb.granularity) else none

/-- The words of a chunk, as the first one and their number. -/
def serializationChunk (hb : HBitmap host) (start count : Nat) : Option (Nat × Nat) := do
  let last := lastItem start count
  let gran ← hbitmapSerializationAlign hb
  if ¬ start &&& (gran - 1) = 0 then none else
  if ¬ last >>> hb.granularity < hb.size then none else
  -- Only the last chunk may have any size.
  if last >>> hb.granularity ≠ hb.size - 1 ∧ ¬ count &&& (gran - 1) = 0 then none else
  let start := (start >>> hb.granularity) >>> host.bitsPerLevel
  let last := (last >>> hb.granularity) >>> host.bitsPerLevel
  return (start, (last + 2 ^ 64 - start + 1) % 2 ^ 64)

/-- The loop of `hbitmap_serialize_part` over some words from a position on. -/
def serializeWords (hb : HBitmap host) : Nat → Nat → Option (List UInt8)
  | 0, _ => some []
  | left + 1, pos => do
    let el ← hb.word? host.bottom pos
    let rest ← serializeWords hb left (pos + 1)
    return toBytes host.bytesPerLong el.toNat ++ rest

/-- The bytes of a chunk, little-endian on each host. -/
def hbitmapSerializePart (hb : HBitmap host) (start count : Nat) : Option (List UInt8) := do
  if count = 0 then return []
  let (first, elCount) ← serializationChunk hb start count
  serializeWords hb elCount first

/-- Overwrite a word inside the array of a level. -/
def HBitmap.setWord? (hb : HBitmap host) (level pos : Nat)
    (word : host.Word) : Option (HBitmap host) :=
  if pos < hb.sizes level then some (hb.setWord level pos word) else none

/-- The loop of `hbitmap_deserialize_part`; a buffer that is too short is overrun. -/
def deserializeWords : Nat → Nat → List UInt8 → HBitmap host → Option (HBitmap host)
  | 0, _, _, hb => some hb
  | left + 1, pos, buf, hb =>
    if buf.length < host.bytesPerLong then none else do
    let hb ← hb.setWord? host.bottom pos (BitVec.ofNat _ (ofByteList (buf.take host.bytesPerLong)))
    deserializeWords left (pos + 1) (buf.drop host.bytesPerLong) hb

/-- The `memset` of `hbitmap_deserialize_zeroes` and `hbitmap_deserialize_ones`. -/
def fillChunk (fill : host.Word) : Nat → Nat → HBitmap host → Option (HBitmap host)
  | 0, _, hb => some hb
  | left + 1, pos, hb => do
    let hb ← hb.setWord? host.bottom pos fill
    fillChunk fill left (pos + 1) hb

/-- The inner loop of `hbitmap_deserialize_finish`: a bit for a nonzero word of the level below. -/
def markWord (lev i : Nat) (hb : HBitmap host) : Option (HBitmap host) := do
  let below ← hb.word? (lev + 1) i
  if below = 0#(host.bitsPerLong) then return hb
  let pos := i >>> host.bitsPerLevel
  let word ← hb.word? lev pos
  return hb.setWord lev pos (word ||| 1#(host.bitsPerLong) <<< (i &&& (host.bitsPerLong - 1)))

/-- The inner loop of `hbitmap_deserialize_finish` over some words below. -/
def markWords (lev : Nat) : Nat → Nat → HBitmap host → Option (HBitmap host)
  | 0, _, hb => some hb
  | left + 1, i, hb => do
    let hb ← markWord lev i hb
    markWords lev left (i + 1) hb

/-- The `memset` of a whole level in `hbitmap_deserialize_finish`. -/
def clearLevel (lev size : Nat) (hb : HBitmap host) : Option (HBitmap host) :=
  if size ≤ hb.sizes lev then
    some { hb with levels := fun level pos => if level = lev ∧ pos < size then 0#(host.bitsPerLong)
      else hb.levels level pos }
  else none

/-- The outer loop of `hbitmap_deserialize_finish`, upwards below a level. -/
def finishLevels : Nat → Nat → HBitmap host → Option (HBitmap host)
  | 0, _, hb => some hb
  | lev + 1, prevSize, hb => do
    let size := host.wordsFor prevSize
    let hb ← clearLevel lev size hb
    let hb ← markWords lev prevSize 0 hb
    finishLevels lev size hb

/-- The upper levels and the count from the bottom. -/
def hbitmapDeserializeFinish (hb : HBitmap host) : Option (HBitmap host) := do
  let hb ← finishLevels host.bottom (host.wordsFor hb.size) hb
  let top ← hb.word? 0 0
  let hb := hb.setWord 0 0 (top ||| host.sentinel)
  let count ← hbCountBetween hb 0 ((hb.size + 2 ^ 64 - 1) % 2 ^ 64)
  return { hb with count := count }

/-- Rebuild the bitmap if this was the last chunk. -/
def finishIf (finish : Bool) (hb : HBitmap host) : Option (HBitmap host) :=
  if finish then hbitmapDeserializeFinish hb else some hb

/-- Load a chunk from bytes. -/
def hbitmapDeserializePart (hb : HBitmap host) (buf : List UInt8)
    (start count : Nat) (finish : Bool) : Option (HBitmap host) := do
  if count = 0 then return hb
  let (first, elCount) ← serializationChunk hb start count
  let hb ← deserializeWords elCount first buf hb
  finishIf finish hb

/-- What `hbitmap_deserialize_zeroes` and `hbitmap_deserialize_ones` share. -/
def deserializeFill (fill : host.Word) (hb : HBitmap host) (start count : Nat) (finish : Bool) :
    Option (HBitmap host) := do
  if count = 0 then return hb
  let (first, elCount) ← serializationChunk hb start count
  let hb ← fillChunk fill elCount first hb
  finishIf finish hb

/-- Load a chunk of clean items. -/
def hbitmapDeserializeZeroes (hb : HBitmap host) (start count : Nat)
    (finish : Bool) : Option (HBitmap host) :=
  deserializeFill 0#(host.bitsPerLong) hb start count finish

/-- Load a chunk of dirty items. -/
def hbitmapDeserializeOnes (hb : HBitmap host) (start count : Nat)
    (finish : Bool) : Option (HBitmap host) :=
  deserializeFill (BitVec.allOnes _) hb start count finish

/-- The content of a chunk: bytes of another bitmap, zeroes or ones. -/
inductive Loader (host : HostLong) where
  | part (source : HBitmap host)
  | zeroes
  | ones

/-- A chunk of items and its content. -/
structure Load (host : HostLong) where
  start : Nat
  count : Nat
  loader : Loader host

variable {hb hb' : HBitmap host} {load : Load host}

/-- Load a chunk; the bytes of another bitmap are those of the same chunk there. -/
def Load.apply (hb : HBitmap host) (load : Load host) : Option (HBitmap host) :=
  match load.loader with
  | .part source => do
    let buf ← hbitmapSerializePart source load.start load.count
    hbitmapDeserializePart hb buf load.start load.count false
  | .zeroes => hbitmapDeserializeZeroes hb load.start load.count false
  | .ones => hbitmapDeserializeOnes hb load.start load.count false

def Load.Has (load : Load host) (item : Nat) : Prop :=
  load.start ≤ item ∧ item < load.start + load.count

/-- What an item of the chunk is to be. -/
def Load.content (load : Load host) (item : Nat) : Option Bool :=
  match load.loader with
  | .part source => hbitmapGet source item
  | .zeroes => some false
  | .ones => some true

def Load.word (load : Load host) (pos : Nat) : host.Word :=
  match load.loader with
  | .part source => source.levels host.bottom pos
  | .zeroes => 0#(host.bitsPerLong)
  | .ones => BitVec.allOnes _

def Load.lastGroup (load : Load host) (granularity : Nat) : Nat :=
  (load.start + load.count - 1) / 2 ^ granularity

/-- A nonempty chunk begins on an alignment boundary, and ends on one or in the last group. -/
structure Load.Aligned (hb : HBitmap host) (load : Load host) : Prop where
  starts : load.start % (64 * 2 ^ hb.granularity) = 0
  inside : load.lastGroup hb.granularity < hb.size
  whole : load.lastGroup hb.granularity ≠ hb.size - 1 → load.count % (64 * 2 ^ hb.granularity) = 0

def Load.firstWord (load : Load host) (granularity : Nat) : Nat :=
  load.start / 2 ^ granularity / host.bitsPerLong

def Load.lastWord (load : Load host) (granularity : Nat) : Nat :=
  load.lastGroup granularity / host.bitsPerLong

/-- The chunk takes a word, which lies between those of its first and last group. -/
def Load.Writes (load : Load host) (granularity pos : Nat) : Prop :=
  load.count ≠ 0 ∧ load.firstWord granularity ≤ pos ∧ pos ≤ load.lastWord granularity

/-- A bitmap of the same shape with a chunk of the bottom level overwritten. -/
structure Overwritten (hb hb' : HBitmap host) (written : Nat → Prop)
    (word : Nat → host.Word) : Prop where
  frame : hb' = { hb with levels := hb'.levels }
  upper : ∀ level ≠ host.bottom, hb'.levels level = hb.levels level
  inside : ∀ pos, written pos → hb'.levels host.bottom pos = word pos
  outside : ∀ pos, ¬ written pos → hb'.levels host.bottom pos = hb.levels host.bottom pos

theorem Overwritten.refl (hb) {written} (none : ∀ pos, ¬ written pos) (word : Nat → host.Word) :
    Overwritten hb hb written word :=
  ⟨rfl, fun _ _ => rfl, fun pos here => absurd here (none pos), fun _ _ => rfl⟩

theorem Overwritten.cons {word pos stop} (order : pos < stop)
    (rest : Overwritten (hb.setWord host.bottom pos (word pos)) hb'
      (fun other => pos + 1 ≤ other ∧ other < stop) word) :
    Overwritten hb hb' (fun other => pos ≤ other ∧ other < stop) word := by
  have first : ∀ other, (hb.setWord host.bottom pos (word pos)).levels host.bottom other =
      if other = pos then word pos else hb.levels host.bottom other := by
    intro other
    simp [HBitmap.setWord]
  refine ⟨rest.frame, fun level above => ?_, fun other here => ?_, fun other apart => ?_⟩
  · rw [rest.upper level above]
    funext other
    simp [HBitmap.setWord, above]
  · by_cases same : other = pos
    · rw [rest.outside other (by omega), first, if_pos same, same]
    · exact rest.inside other (by omega)
  · rw [rest.outside other (by omega), first, if_neg (by omega)]

end Qemu.Util
