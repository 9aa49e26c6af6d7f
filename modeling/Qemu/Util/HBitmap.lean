import Qemu.Lib.WordBits

/-! The hierarchical bitmap of `util/hbitmap.c`: levels of bits say which words below are in use. -/

namespace Qemu.Util

open WordBits

/-- The two widths of `unsigned long` on a host. -/
inductive HostLong where
  | bits32
  | bits64
  deriving DecidableEq

/-- Index bits that one level consumes. -/
def HostLong.bitsPerLevel : HostLong → Nat
  | .bits32 => 5
  | .bits64 => 6

def HostLong.bitsPerLong (host : HostLong) : Nat := 2 ^ host.bitsPerLevel

/-- `HBITMAP_LOG_MAX_SIZE`: a bitmap has at most two to this power bits. -/
def HostLong.logMaxSize : HostLong → Nat
  | .bits32 => 34
  | .bits64 => 41

/-- The bottom one of the `HBITMAP_LEVELS` levels, counted from the coarsest. -/
def HostLong.bottom (host : HostLong) : Nat := host.logMaxSize / host.bitsPerLevel

abbrev HostLong.Word (host : HostLong) := BitVec host.bitsPerLong

/-- The bitmap: a level is an array of words with a length. Nothing ever attaches a meta bitmap. -/
structure HBitmap (host : HostLong) where
  origSize : Nat
  size : Nat
  count : Nat
  granularity : Nat
  levels : Nat → Nat → host.Word
  sizes : Nat → Nat

variable {host : HostLong}

/-- Read a word inside the array of a level. -/
def HBitmap.word? (hb : HBitmap host) (level pos : Nat) : Option host.Word :=
  if pos < hb.sizes level then some (hb.levels level pos) else none

def HBitmap.setWord (hb : HBitmap host) (level pos : Nat) (word : host.Word) : HBitmap host :=
  { hb with
    levels := fun level' pos' => if level' = level ∧
      pos' = pos then word else hb.levels level' pos' }

/-- The word of level 0 with nothing but the sentinel. -/
def HostLong.sentinel (host : HostLong) : host.Word :=
  1#(host.bitsPerLong) <<< (host.bitsPerLong - 1)

/-- The current word, and a stale copy of a word for each level. -/
structure HBitmapIter (host : HostLong) where
  granularity : Nat
  pos : Nat
  cur : Nat → host.Word

/-- A table with one entry replaced. -/
def setAt {α : Type} (table : Nat → α) (i : Nat) (value : α) : Nat → α :=
  fun j => if j = i then value else table j

variable (hb : HBitmap host)

/-- The first loop of `hbitmap_iter_skip_words`, upwards to a word that is not used up. -/
def skipUp (cur : Nat → host.Word) : Nat → Nat → Option (Nat × Nat × host.Word)
  | 0, _ => none -- Above the coarsest level the arrays are overrun.
  | i + 1, pos => do
    let pos := pos >>> host.bitsPerLevel
    let word ← hb.word? i pos
    let word := cur i &&& word
    if word = 0#(host.bitsPerLong) then skipUp cur i pos else some (i, pos, word)

/-- The second loop of `hbitmap_iter_skip_words`, down the levels that are left along the lowest
bits. -/
def skipDown : Nat → Nat → Nat → host.Word → (Nat → host.Word) →
    Option (Nat × host.Word × (Nat → host.Word))
  | 0, _, pos, word, cur => some (pos, word, cur)
  | left + 1, i, pos, word, cur =>
    if word = 0#(host.bitsPerLong) then none else do
    let pos := (pos <<< host.bitsPerLevel) + word.ctz.toNat
    let next ← hb.word? (i + 1) pos
    skipDown left (i + 1) pos next (setAt cur i (clearLowest word))

/-- To the next nonzero word. -/
def hbitmapIterSkipWords (hbi : HBitmapIter host) : Option (host.Word × HBitmapIter host) := do
  let (i, pos, word) ← skipUp hb hbi.cur host.bottom hbi.pos
  if i = 0 ∧ word = host.sentinel then return (0#(host.bitsPerLong), hbi)
  let (pos, word, cur) ← skipDown hb (host.bottom - i) i pos word hbi.cur
  if word = 0#(host.bitsPerLong) then none else
  return (word, { hbi with pos := pos, cur := cur })

/-- The next item that is set, or -1. -/
def hbitmapIterNext (hbi : HBitmapIter host) : Option (Int × HBitmapIter host) := do
  let word ← hb.word? host.bottom hbi.pos
  let word := hbi.cur host.bottom &&& word
  let (word, hbi) ← if word = 0#(host.bitsPerLong)
    then hbitmapIterSkipWords hb hbi else some (word, hbi)
  if word = 0#(host.bitsPerLong) then return (-1, hbi)
  let item := (hbi.pos <<< host.bitsPerLevel) + word.ctz.toNat
  return ((BitVec.ofNat 64 (item <<< hbi.granularity)).toInt,
    { hbi with cur := setAt hbi.cur host.bottom (clearLowest word) })

/-- The loop of `hbitmap_iter_init` over the levels from the bottom up. -/
def iterInitLevels : Nat → Nat → (Nat → host.Word) → Option (Nat → host.Word)
  | 0, _, cur => some cur
  | i + 1, pos, cur => do
    let bit := pos &&& (host.bitsPerLong - 1)
    let pos := pos >>> host.bitsPerLevel
    let word ← hb.word? i pos
    -- Drop the items before the first; above the bottom, the level below stands for the lowest bit.
    let word := word &&& ~~~lowMask host.bitsPerLong bit
    let word := if i = host.bottom then word else word &&& ~~~(1#(host.bitsPerLong) <<< bit)
    iterInitLevels i pos (setAt cur i word)

def hbitmapIterInit (first : Nat) : Option (HBitmapIter host) := do
  let pos := first >>> hb.granularity
  if ¬ pos < hb.size then none else
  let cur ← iterInitLevels hb (host.bottom + 1) pos fun _ => 0#(host.bitsPerLong)
  return { granularity := hb.granularity, pos := pos >>> host.bitsPerLevel, cur := cur }

/-- The next nonzero word and its position, which may be -1. -/
def hbitmapIterNextWord (hbi : HBitmapIter host) : Option (Nat × host.Word × HBitmapIter host) := do
  let word := hbi.cur host.bottom
  let (word, hbi) ← if word = 0#(host.bitsPerLong)
    then hbitmapIterSkipWords hb hbi else some (word, hbi)
  if word = 0#(host.bitsPerLong) then return (2 ^ host.bitsPerLong - 1, 0#(host.bitsPerLong), hbi)
  return (hbi.pos, word, { hbi with cur := setAt hbi.cur host.bottom 0#(host.bitsPerLong) })

/-- The loop of `hb_count_between`, over at most the given number of words. -/
def countWords (stop : Nat) : Nat → Nat → HBitmapIter host → Option (Nat × Nat × host.Word)
  | 0, _, _ => none
  | fuel + 1, count, hbi => do
    let (pos, word, hbi) ← hbitmapIterNextWord hb hbi
    if pos ≥ stop then return (count, pos, word)
    countWords stop fuel (count + word.cpop.toNat) hbi

/-- The number of bits that are set in a range of groups. -/
def hbCountBetween (start last : Nat) : Option Nat := do
  let stop := (last + 1) % 2 ^ 64
  let hbi ← hbitmapIterInit hb ((start <<< hb.granularity) % 2 ^ 64)
  -- No word is met twice.
  let (count, pos, word) ← countWords hb (stop >>> host.bitsPerLevel)
    (hb.sizes host.bottom + 1) 0 hbi
  if pos = stop >>> host.bitsPerLevel then
    let word := word &&& lowMask host.bitsPerLong (stop &&& (host.bitsPerLong - 1))
    return count + word.cpop.toNat
  return count

/-- The two assertions and the mask that `hb_set_elem` and `hb_reset_elem` share. -/
def elemMask (host : HostLong) (start last : Nat) : Option host.Word :=
  if last >>> host.bitsPerLevel = start >>> host.bitsPerLevel ∧ start ≤ last then
    some (rangeMask host.bitsPerLong (start &&& (host.bitsPerLong - 1))
      (last &&& (host.bitsPerLong - 1)))
  else none

/-- `hb_set_elem` on a range of bits: whether the word changed. -/
def hbSetElem (elem : host.Word) (start last : Nat) : Option (Bool × host.Word) := do
  let mask ← elemMask host start last
  return (elem ≠ elem ||| mask, elem ||| mask)

/-- `hb_reset_elem` on a range of bits: whether the word became zero. -/
def hbResetElem (elem : host.Word) (start last : Nat) : Option (Bool × host.Word) := do
  let mask ← elemMask host start last
  return (elem ≠ 0#(host.bitsPerLong) && elem &&& ~~~mask = 0#(host.bitsPerLong), elem &&& ~~~mask)

/-- Apply a function to a word of a level. -/
def updateWord (update : host.Word → Option (Bool × host.Word))
    (hb : HBitmap host) (level pos : Nat) : Option (Bool × HBitmap host) := do
  let word ← hb.word? level pos
  let (changed, word) ← update word
  return (changed, hb.setWord level pos word)

/-- The loop of `hb_set_between` and `hb_reset_between` over the words up to the last, of which it
returns the first bit. -/
def fillWords (fill : host.Word) (counts : host.Word → Bool) (level lastpos : Nat) :
    Nat → Nat → Nat → Bool → HBitmap host → Option (Nat × Bool × HBitmap host)
  | 0, _, _, _, _ => none
  | left + 1, i, next, changed, hb =>
    if i + 1 = lastpos then some (next, changed, hb)
    else do
      let word ← hb.word? level (i + 1)
      fillWords fill counts level lastpos left (i + 1)
        (next + host.bitsPerLong) (changed || counts word) (hb.setWord level (i + 1) fill)

def nextWordStart (host : HostLong) (start : Nat) : Nat := (start ||| (host.bitsPerLong - 1)) + 1

/-- What `hb_set_between` does at one level. -/
def setLevel (hb : HBitmap host) (level start last : Nat) : Option (Bool × HBitmap host) := do
  let pos := start >>> host.bitsPerLevel
  let lastpos := last >>> host.bitsPerLevel
  if pos < lastpos then
    let next := nextWordStart host start
    let (changed, hb) ← updateWord (hbSetElem · start (next - 1)) hb level pos
    let (start, changed, hb) ←
      fillWords (BitVec.allOnes _) (fun word => word = 0#(host.bitsPerLong)) level lastpos
        (lastpos - pos) pos next changed hb
    let (lastChanged, hb) ← updateWord (hbSetElem · start last) hb level lastpos
    return (changed || lastChanged, hb)
  else updateWord (hbSetElem · start last) hb level pos

/-- Set a range of bits of a level, and above it what changed. -/
def hbSetBetween : Nat → Nat → Nat → HBitmap host → Option (Bool × HBitmap host)
  | 0, start, last, hb => setLevel hb 0 start last
  | level + 1, start, last, hb => do
    let (changed, hb) ← setLevel hb (level + 1) start last
    if changed then
      let (_, hb) ← hbSetBetween level (start >>> host.bitsPerLevel) (last >>> host.bitsPerLevel) hb
      return (true, hb)
    return (false, hb)

/-- One less in the host's `size_t`. -/
def HostLong.decrement (host : HostLong) (n : Nat) : Nat :=
  (n + (2 ^ host.bitsPerLong - 1)) % 2 ^ host.bitsPerLong

/-- `hb_reset_between` at one level, with the range of words that became zero. -/
def resetLevel (hb : HBitmap host) (level start last : Nat) :
    Option (Bool × Nat × Nat × HBitmap host) := do
  let pos := start >>> host.bitsPerLevel
  let lastpos := last >>> host.bitsPerLevel
  if pos < lastpos then
    let next := nextWordStart host start
    let (firstBlanked, hb) ← updateWord (hbResetElem · start (next - 1)) hb level pos
    let (start, changed, hb) ←
      fillWords 0#(host.bitsPerLong) (fun word => word ≠ 0#(host.bitsPerLong)) level lastpos
        (lastpos - pos) pos next firstBlanked hb
    let (lastBlanked, hb) ← updateWord (hbResetElem · start last) hb level lastpos
    return (changed || lastBlanked, if firstBlanked then pos else pos + 1,
      if lastBlanked then lastpos else host.decrement lastpos, hb)
  else
    let (lastBlanked, hb) ← updateWord (hbResetElem · start last) hb level pos
    return (lastBlanked, pos, if lastBlanked then lastpos else host.decrement lastpos, hb)

/-- Clear a range, and above it the bits of words that became zero. -/
def hbResetBetween : Nat → Nat → Nat → HBitmap host → Option (Bool × HBitmap host)
  | 0, start, last, hb => do
    let (changed, _, _, hb) ← resetLevel hb 0 start last
    return (changed, hb)
  | level + 1, start, last, hb => do
    let (changed, pos, lastpos, hb) ← resetLevel hb (level + 1) start last
    if changed then
      let (_, hb) ← hbResetBetween level pos lastpos hb
      return (true, hb)
    return (false, hb)

/-- The last item of a range, in 64 bits. -/
def lastItem (start count : Nat) : Nat := (start + count + (2 ^ 64 - 1)) % 2 ^ 64

def hbitmapSet (hb : HBitmap host) (start count : Nat) : Option (HBitmap host) := do
  if count = 0 then return hb
  let first := start >>> hb.granularity
  let last := lastItem start count >>> hb.granularity
  if ¬ last < hb.size then none else
  let n := (last + 2 ^ 64 - first + 1) % 2 ^ 64
  let already ← hbCountBetween hb first last
  let hb := { hb with count := (hb.count + (n + 2 ^ 64 - already)) % 2 ^ 64 }
  let (_, hb) ← hbSetBetween host.bottom first last hb
  return hb

/-- Clear a range of items. -/
def hbitmapReset (hb : HBitmap host) (start count : Nat) : Option (HBitmap host) := do
  if count = 0 then return hb
  let gran := 2 ^ hb.granularity
  if ¬ start % gran = 0 then none else
  if ¬ (count % gran = 0 ∨ (start + count) % 2 ^ 64 = hb.origSize) then none else
  let first := start >>> hb.granularity
  let last := lastItem start count >>> hb.granularity
  if ¬ last < hb.size then none else
  let already ← hbCountBetween hb first last
  let hb := { hb with count := (hb.count + 2 ^ 64 - already) % 2 ^ 64 }
  let (_, hb) ← hbResetBetween host.bottom first last hb
  return hb

def hbitmapResetAll (hb : HBitmap host) : HBitmap host :=
  { hb with
    count := 0
    levels := fun level pos =>
      if 0 < level ∧ level ≤ host.bottom ∧ pos < hb.sizes level then 0#(host.bitsPerLong)
      else if level = 0 ∧ pos = 0 then host.sentinel
      else hb.levels level pos }

/-- Whether an item is set. -/
def hbitmapGet (hb : HBitmap host) (item : Nat) : Option Bool := do
  let pos := item >>> hb.granularity
  let bit := 1#(host.bitsPerLong) <<< (pos &&& (host.bitsPerLong - 1))
  if ¬ pos < hb.size then none else
  let word ← hb.word? host.bottom (pos >>> host.bitsPerLevel)
  return word &&& bit ≠ 0#(host.bitsPerLong)

/-- The number of groups of a number of items, in 64 bits. -/
def groupsFor (size granularity : Nat) : Nat :=
  ((size + 2 ^ granularity - 1) % 2 ^ 64) >>> granularity

/-- The number of words for a number of bits, at least one. -/
def HostLong.wordsFor (host : HostLong) (bits : Nat) : Nat :=
  max ((bits + host.bitsPerLong - 1) >>> host.bitsPerLevel) 1

/-- The loop of `hbitmap_alloc` from the bottom up: the sizes, and the last one. -/
def allocLevels (host : HostLong) : Nat → Nat → (Nat → Nat) → Nat × (Nat → Nat)
  | 0, size, sizes => (size, sizes)
  | i + 1, size, sizes =>
    let size := host.wordsFor size
    allocLevels host i size (setAt sizes i size)

/-- A new bitmap with nothing set. -/
def hbitmapAlloc (host : HostLong) (size : Nat) (granularity : Int) : Option (HBitmap host) := do
  if ¬ size ≤ 2 ^ 63 - 1 then none else
  if ¬ (granularity ≥ 0 ∧ granularity < 64) then none else
  let groups := groupsFor size granularity.toNat
  if ¬ groups ≤ 2 ^ host.logMaxSize then none else
  let (last, sizes) := allocLevels host (host.bottom + 1) groups fun _ => 0
  if ¬ last = 1 then none else
  return { origSize := size, size := groups, count := 0, granularity := granularity.toNat,
           sizes := sizes, levels := fun level pos => if level = 0 ∧
             pos = 0 then host.sentinel else 0#(host.bitsPerLong) }

/-- The loop of `hbitmap_truncate` over the levels from the bottom up. -/
def truncateLevels (shrink : Bool) : Nat → Nat → HBitmap host → HBitmap host
  | 0, _, hb => hb
  | i + 1, size, hb =>
    let size := host.wordsFor size
    if hb.sizes i = size then hb
    else
      -- A larger array is new from the end of the old one on, and cleared there.
      let old := hb.sizes i
      truncateLevels shrink i size
        { hb with
          sizes := setAt hb.sizes i size
          levels := fun level pos =>
            if level = i ∧ shrink = false ∧ old ≤ pos ∧ pos < size then 0#(host.bitsPerLong)
              else hb.levels level pos }

/-- Change the number of items. -/
def hbitmapTruncate (hb : HBitmap host) (size : Nat) : Option (HBitmap host) := do
  if ¬ size ≤ 2 ^ 63 - 1 then none else
  let hb := { hb with origSize := size }
  let groups := groupsFor size hb.granularity
  if ¬ groups ≤ 2 ^ host.logMaxSize then none else
  let shrink := groups < hb.size
  if groups = hb.size then return hb
  let hb ←
    if shrink then do
      -- The groups from the first full one beyond the end are cleared before they are cut off.
      let rounded := (size + 2 ^ hb.granularity - 1) % 2 ^ 64
      let start := rounded - rounded % 2 ^ hb.granularity
      let fixCount := ((hb.size <<< hb.granularity) + 2 ^ 64 - start) % 2 ^ 64
      if fixCount = 0 then none else
      hbitmapReset hb start fixCount
    else some hb
  return truncateLevels shrink (host.bottom + 1) groups { hb with size := groups }

end Qemu.Util
