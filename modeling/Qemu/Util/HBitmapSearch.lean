import Qemu.Lib.FirstIn
import Qemu.Util.HBitmapRuns

/-! Searching a bitmap: `hbitmap_next_dirty`, `hbitmap_next_zero`, `hbitmap_next_dirty_area`. -/

namespace Qemu.Util

open WordBits FirstIn GuardedRun Option BitVec Nat

variable {host : HostLong} {hb : HBitmap host} {members : Finset Nat} {start stop : Nat}

/-- A result of signed 64-bit arithmetic, which must not overflow. -/
def int64 (n : Int) : Option Int := if -2 ^ 63 ≤ n ∧ n < 2 ^ 63 then some n else none

/-- The end of a search for a dirty item: of the range, or of the bitmap. -/
def dirtyEnd (hb : HBitmap host) (start count : Int) : Option Int :=
  if count.toNat > hb.origSize - start.toNat then some (hb.origSize : Int)
    else int64 (start + count)

/-- The first dirty item of a range, or -1. -/
def hbitmapNextDirty (hb : HBitmap host) (start count : Int) : Option Int := do
  if ¬ (start ≥ 0 ∧ count ≥ 0) then none else
  if start.toNat ≥ hb.origSize ∨ count = 0 then return -1
  let stop ← dirtyEnd hb start count
  let hbi ← hbitmapIterInit hb start.toNat
  let (firstDirtyOff, _) ← hbitmapIterNext hb hbi
  if firstDirtyOff < 0 ∨ firstDirtyOff ≥ stop then return -1
  return max start firstDirtyOff

/-- The loop of `hbitmap_next_zero` over words of ones, with the number of words to the end. -/
def skipOnes (hb : HBitmap host) : Nat → Nat → Option Nat
  | 0, pos => some pos
  | left + 1, pos => do
    let word ← hb.word? host.bottom pos
    if word = allOnes _ then skipOnes hb left (pos + 1) else some pos

/-- Where `hbitmap_next_zero` ends up: the first word with a clear bit. -/
def zeroWord (hb : HBitmap host) (sz pos : Nat) (cur : host.Word) :
    Option (Option (Nat × host.Word)) := do
  if cur = allOnes _ then
    let pos ← skipOnes hb (sz - (pos + 1)) (pos + 1)
    if pos ≥ sz then return none
    let cur ← hb.word? host.bottom pos
    return some (pos, cur)
  return some (pos, cur)

/-- The end of a search for a clean item, as a number of groups. -/
def zeroEndBit (hb : HBitmap host) (start count : Int) : Option Nat :=
  if count.toNat > hb.origSize - start.toNat then some hb.size
  else (int64 (start + count - 1)).map fun last => (last.toNat >>> hb.granularity) + 1

/-- The end of `hbitmap_next_zero`: the lowest clear bit's item, if before the end. -/
def zeroItem (hb : HBitmap host) (start : Int) (endBit pos : Nat)
    (cur : host.Word) : Option Int := do
  -- The sum has the type of `pos`, which is `size_t`.
  let res := ((pos <<< host.bitsPerLevel) + (~~~cur).ctz.toNat) % 2 ^ host.bitsPerLong
  if res ≥ endBit then return -1
  let res ← int64 ((res <<< hb.granularity : Nat) : Int)
  if res < start then
    if ¬ ((start - res).toNat >>> hb.granularity = 0) then none else return start
  else return res

/-- The first clean item of a range, or -1. -/
def hbitmapNextZero (hb : HBitmap host) (start count : Int) : Option Int := do
  if ¬ (start ≥ 0 ∧ count ≥ 0) then none else
  -- The word is read before the range is checked, at an index of type `size_t`.
  let pos := ((start.toNat >>> hb.granularity) >>> host.bitsPerLevel) % 2 ^ host.bitsPerLong
  let cur ← hb.word? host.bottom pos
  if start.toNat ≥ hb.origSize ∨ count = 0 then return -1
  let endBit ← zeroEndBit hb start count
  let sz := ((endBit + host.bitsPerLong - 1) % 2 ^ 64) >>> host.bitsPerLevel
  -- Bits before the start count as set.
  let startBitOffset := (start.toNat >>> hb.granularity) &&& (host.bitsPerLong - 1)
  let cur := cur ||| lowMask host.bitsPerLong startBitOffset
  if ¬ (start.toNat >>> hb.granularity < hb.size) then none else
  let found ← zeroWord hb sz pos cur
  match found with
  | none => return -1
  | some (pos, cur) => zeroItem hb start endBit pos cur

/-- The start and length of the first run. -/
def hbitmapNextDirtyArea (hb : HBitmap host) (start stop maxDirtyCount : Int) :
    Option (Option (Int × Int)) := do
  if ¬ (start ≥ 0 ∧ stop ≥ 0 ∧ maxDirtyCount > 0) then none else
  let stop := min stop (hb.origSize : Int)
  if start ≥ stop then return none
  let length ← int64 (stop - start)
  let start ← hbitmapNextDirty hb start length
  if start < 0 then return none
  let length ← int64 (stop - start)
  let stop ← int64 (start + min length maxDirtyCount)
  let length ← int64 (stop - start)
  let nextZero ← hbitmapNextZero hb start length
  let stop := if nextZero ≥ 0 then nextZero else stop
  let dirtyCount ← int64 (stop - start)
  return some (start, dirtyCount)

theorem Holds.get_true_iff (holds : Holds hb members) (item) :
    hbitmapGet hb item = some true ↔ item / 2 ^ hb.granularity ∈ members := by
  have index := shiftRight_eq_div_pow item hb.granularity
  by_cases within : item >>> hb.granularity < hb.size
  · rw [hbitmapGet_spec holds.toRepresents within, Option.some.injEq, decide_eq_true_eq, index]
  -- Beyond the size the assertion fails, and no group is in the set.
  have fails : hbitmapGet hb item = none := by rw [hbitmapGet, if_pos within]
  rw [fails, ← index]
  simp only [reduceCtorEq, false_iff]
  exact fun mem => within (holds.within _ mem)

theorem Holds.group_lt (holds : Holds hb members) {item} (inside : item < hb.origSize) :
    item / 2 ^ hb.granularity < hb.size := by
  rw [holds.groups, lt_groupsFor_iff holds.original holds.granular]
  have := div_mul_le_self item (2 ^ hb.granularity)
  omega

theorem Holds.get_false_iff (holds : Holds hb members) {item} (inside : item < hb.origSize) :
    hbitmapGet hb item = some false ↔ item / 2 ^ hb.granularity ∉ members := by
  have index := shiftRight_eq_div_pow item hb.granularity
  have within : item >>> hb.granularity < hb.size := index ▸ holds.group_lt inside
  rw [hbitmapGet_spec holds.toRepresents within, Option.some.injEq, decide_eq_false_iff_not, index]

theorem int64_eq {n} (lower : 0 ≤ n) (upper : n ≤ 2 ^ 63 - 1) : int64 n = some n :=
  if_pos ⟨by omega, by omega⟩

/-- The search for a dirty item is exact. -/
theorem hbitmapNextDirty_spec (holds : Holds hb members) (start count : Nat) :
    ∃ answer, hbitmapNextDirty hb start count = some answer ∧
      Finds (fun item => hbitmapGet hb item = some true) start
          (min (start + count) hb.origSize) answer := by
  simp only [holds.get_true_iff]
  rw [hbitmapNextDirty, if_neg (by omega), Int.toNat_natCast]
  by_cases nothing : start ≥ hb.origSize ∨ (count : Int) = 0
  · rw [if_pos nothing]
    exact ⟨-1, rfl, .inr ⟨rfl, fun item lower upper => by omega⟩⟩
  -- The last item that a search may return is at most the last one of the bitmap.
  have dirtyEnd_eq : dirtyEnd hb start count =
      some ((min (start + count) hb.origSize : Nat) : Int) := by
    have bounded := holds.original
    rw [dirtyEnd, Int.toNat_natCast, Int.toNat_natCast]
    by_cases far : count > hb.origSize - start
    · rw [if_pos far, Nat.min_eq_right (by omega)]
    · rw [if_neg far, Nat.min_eq_left (by omega), int64_eq (by omega) (by omega), Int.natCast_add]
  rw [if_neg nothing, dirtyEnd_eq]
  generalize stop_eq : min (start + count) hb.origSize = stop
  have order : start < stop := by omega
  have first : start >>> hb.granularity < hb.size := by
    rw [shiftRight_eq_div_pow]
    exact holds.group_lt (by omega)
  obtain ⟨hbi, started, fits, _⟩ := hbitmapIterInit_spec holds.toRepresents first
  rw [shiftRight_eq_div_pow] at fits
  have pos := Nat.two_pow_pos hb.granularity
  rcases hbitmapIterNext_spec holds.toRepresents holds.room (Finset.Subset.refl _) fits with
    ⟨next, none⟩ | ⟨group, mem, hbi', next, after, _, least⟩
  · refine ⟨-1, by simp [started, next],
      finds_none_of_blocks fun place lower _ mem => none place mem lower⟩
  by_cases inside : group * 2 ^ hb.granularity < stop
  · refine ⟨(max start (group * 2 ^ hb.granularity) : Nat), ?_, finds_of_block pos order after mem
      (fun earlier lower upper mem => absurd (least earlier mem lower) (by omega)) inside⟩
    have reached : ¬ (((group * 2 ^ hb.granularity : Nat) : Int) < 0 ∨
        ((group * 2 ^ hb.granularity : Nat) : Int) ≥ (stop : Int)) := by omega
    simp only [started, next, bind_eq_bind, bind_some, if_neg reached]
    exact congrArg some (by omega)
  -- The first dirty group begins after the range, and so does every later one.
  refine ⟨-1, ?_, finds_none_of_blocks fun place lower upper mem => ?_⟩
  · have missed : ((group * 2 ^ hb.granularity : Nat) : Int) < 0 ∨
        ((group * 2 ^ hb.granularity : Nat) : Int) ≥ (stop : Int) := by omega
    simp only [started, next, bind_eq_bind, bind_some, if_pos missed]
    rfl
  · have := Nat.mul_le_mul_right (2 ^ hb.granularity) (least place mem lower)
    omega

/-- The first group from a start on that is not in the set. -/
structure ClearFrom (members : Finset Nat) (start group : Nat) : Prop where
  after : start ≤ group
  clear : group ∉ members
  least : ∀ earlier, start ≤ earlier → earlier < group → earlier ∈ members

/-- The loop stops at the first word that is not all ones. -/
theorem skipOnes_spec {left pos} (inside : pos + left ≤ hb.sizes host.bottom) :
    ∃ stopped, skipOnes hb left pos = some stopped ∧ pos ≤ stopped ∧ stopped ≤ pos + left ∧
      (∀ passed, pos ≤ passed → passed < stopped → hb.levels host.bottom passed = allOnes _) ∧
      (stopped < pos + left → hb.levels host.bottom stopped ≠ allOnes _) := by
  induction left generalizing pos with
  | zero => exact ⟨pos, rfl, le_rfl, le_rfl, fun _ _ _ => by omega, fun _ => by omega⟩
  | succ left ih =>
    have word : hb.word? host.bottom pos = some (hb.levels host.bottom pos) := if_pos (by omega)
    simp only [skipOnes, word, bind_eq_bind, bind_some]
    by_cases full : hb.levels host.bottom pos = allOnes _
    · rw [if_pos full]
      obtain ⟨stopped, res, after, before, passed, ends⟩ := ih (by omega : pos + 1 + left ≤ _)
      refine ⟨stopped, res, by omega, by omega, fun place lower upper => ?_,
        fun early => ends (by omega)⟩
      rcases eq_or_lt_of_le lower with same | later
      · exact same ▸ full
      · exact passed place later upper
    · rw [if_neg full]
      exact ⟨pos, rfl, le_rfl, by omega, fun _ _ _ => by omega, fun _ => full⟩

/-- The lowest clear bit is found through the complement. -/
theorem lowest_clear {word : host.Word} (notFull : word ≠ allOnes _) :
    (~~~word).ctz.toNat < host.bitsPerLong ∧ word.getLsbD (~~~word).ctz.toNat = false ∧
      ∀ bit < (~~~word).ctz.toNat, word.getLsbD bit := by
  have nonzero : ~~~word ≠ 0#(host.bitsPerLong) := by
    intro zero
    have same := congrArg (~~~ ·) zero
    simp only [BitVec.not_not, not_zero] at same
    exact notFull same
  have small := ctz_lt nonzero
  have lowest := getLsbD_true_ctz_of_ne_zero nonzero
  refine ⟨small, ?_, fun bit below => ?_⟩
  · nth_rewrite 1 [getLsbD_not] at lowest
    simpa [small] using lowest
  · by_contra clear
    have isSet : (~~~word).getLsbD bit = true := by
      rw [getLsbD_not, Bool.and_eq_true, decide_eq_true_eq, Bool.not_eq_true']
      exact ⟨by omega, Bool.not_eq_true _ ▸ clear⟩
    have := ctz_le isSet
    omega

theorem Represents.mem_of_full (rep : Represents hb members) {group}
    (inside : group / host.bitsPerLong < hb.sizes host.bottom)
    (full : hb.levels host.bottom (group / host.bitsPerLong) = allOnes _) : group ∈ members := by
  rw [← rep.bit_bottom inside, HBitmap.bit, full, getLsbD_allOnes, decide_eq_true_eq]
  exact mod_lt group host.bitsPerLong_pos

/-- A word that is not full, behind members only, has the first clear group lowest. -/
theorem clearFrom_of_word {start pos : Nat} {word : host.Word} (notFull : word ≠ allOnes _)
    (bits : ∀ group, start ≤ group → group / host.bitsPerLong = pos →
      (word.getLsbD (group % host.bitsPerLong) = true ↔ group ∈ members))
    (masked : ∀ bit, pos * host.bitsPerLong + bit < start → word.getLsbD bit)
    (passed : ∀ group, start ≤ group → group / host.bitsPerLong < pos → group ∈ members) :
    (~~~word).ctz.toNat < host.bitsPerLong ∧
      ClearFrom members start (pos * host.bitsPerLong + (~~~word).ctz.toNat) := by
  obtain ⟨small, clear, below⟩ := lowest_clear notFull
  have inWord := host.div_index pos small
  have after : start ≤ pos * host.bitsPerLong + (~~~word).ctz.toNat := by
    by_contra before
    rw [masked _ (by omega)] at clear
    contradiction
  refine ⟨small, after, ?_, fun earlier lower upper => ?_⟩
  · rw [← bits _ after inWord, host.mod_index pos small, clear]
    exact Bool.false_ne_true
  · have order := Nat.div_le_div_right (c := host.bitsPerLong) (le_of_lt upper)
    rw [inWord] at order
    rcases eq_or_lt_of_le order with same | before
    · have split := host.split_index earlier
      rw [same] at split
      exact (bits earlier lower same).mp (below _ (by omega))
    · exact passed earlier lower before

/-- The word where the search ends has the first clear group in its lowest clear bit, with the bits
before the start masked. -/
theorem zeroWord_spec (rep : Represents hb members) {start sz : Nat}
    (inside : sz ≤ hb.sizes host.bottom) (order : start / host.bitsPerLong < sz) :
    let cur := hb.levels host.bottom (start / host.bitsPerLong) |||
      lowMask host.bitsPerLong (start % host.bitsPerLong)
    zeroWord hb sz (start / host.bitsPerLong) cur = some none ∧
        (∀ group, start ≤ group → group / host.bitsPerLong < sz → group ∈ members) ∨
      ∃ pos word, zeroWord hb sz (start / host.bitsPerLong) cur = some (some (pos, word)) ∧
        pos < sz ∧ (~~~word).ctz.toNat < host.bitsPerLong ∧
        ClearFrom members start (pos * host.bitsPerLong + (~~~word).ctz.toNat) := by
  intro cur
  have startPosition := mod_lt start host.bitsPerLong_pos
  have startSplit := host.split_index start
  -- A bit of the masked first word is set if it is before the start or its group is in the set.
  have bits : ∀ group, start ≤ group → group / host.bitsPerLong = start / host.bitsPerLong →
      (cur.getLsbD (group % host.bitsPerLong) = true ↔ group ∈ members) := by
    intro group lower inWord
    have split := host.split_index group
    rw [inWord] at split
    have inArray : group / host.bitsPerLong < hb.sizes host.bottom := by omega
    rw [← rep.bit_bottom inArray, HBitmap.bit, inWord, getLsbD_or, getLsbD_lowMask startPosition,
      Bool.or_eq_true, or_iff_left]
    simp only [decide_eq_true_eq]
    omega
  by_cases full : cur = allOnes _
  · -- The groups of the first word are all in the set, so the search goes on behind it.
    have firstWord : ∀ group, start ≤ group → group / host.bitsPerLong = start / host.bitsPerLong →
        group ∈ members := by
      intro group lower inWord
      rw [← bits group lower inWord, full, getLsbD_allOnes, decide_eq_true_eq]
      exact mod_lt group host.bitsPerLong_pos
    obtain ⟨stopped, res, after, before, passed, ends⟩ :=
      skipOnes_spec (show start / host.bitsPerLong + 1 + (sz - (start / host.bitsPerLong + 1)) ≤
        hb.sizes host.bottom by omega)
    have skipped : ∀ group, start ≤ group →
        group / host.bitsPerLong < stopped → group ∈ members := by
      intro group lower upper
      have fromStart := Nat.div_le_div_right (c := host.bitsPerLong) lower
      rcases eq_or_lt_of_le fromStart with same | later
      · exact firstWord group lower same.symm
      · exact rep.mem_of_full (by omega) (passed _ later upper)
    rw [zeroWord, if_pos full, res]
    simp only [bind_eq_bind, bind_some]
    by_cases ended : stopped ≥ sz
    · rw [if_pos ended]
      exact .inl ⟨rfl, fun group lower upper => skipped group lower (by omega)⟩
    have inArray : stopped < hb.sizes host.bottom := by omega
    have word : hb.word? host.bottom stopped = some (hb.levels host.bottom stopped) :=
      if_pos inArray
    have later := Nat.mul_le_mul_right host.bitsPerLong after
    rw [Nat.add_mul, Nat.one_mul] at later
    obtain ⟨small, clear⟩ := clearFrom_of_word (ends (by omega))
      (fun group _ inWord => inWord ▸ rep.bit_bottom (inWord.symm ▸ inArray))
        (fun bit _ => by omega) skipped
    exact .inr ⟨stopped, hb.levels host.bottom
      stopped, by rw [if_neg ended, word]; rfl, by omega, small, clear⟩
  -- The first word has a clear bit, which the mask puts at or after the start.
  have masked : ∀ bit, start / host.bitsPerLong * host.bitsPerLong + bit < start →
      cur.getLsbD bit := by
    intro bit before
    rw [getLsbD_or, getLsbD_lowMask startPosition, decide_eq_true (by omega), Bool.or_true]
  obtain ⟨small, clear⟩ := clearFrom_of_word full bits masked fun group lower before =>
    absurd (Nat.div_le_div_right lower) (not_le.mpr before)
  rw [zeroWord, if_neg full]
  exact .inr ⟨_, cur, rfl, order, small, clear⟩

/-- The first clear bit, up to the end of the word of the range's last group, has a number that fits
`size_t`. -/
def Unwrapped (hb : HBitmap host) (start stop : Nat) : Prop :=
  ∀ group, start / 2 ^ hb.granularity ≤ group →
    group / host.bitsPerLong ≤ (stop - 1) / 2 ^ hb.granularity / host.bitsPerLong →
    hb.bit host.bottom group = false →
    (∀ earlier, start / 2 ^ hb.granularity ≤ earlier → earlier < group →
      hb.bit host.bottom earlier = true) → group < 2 ^ host.bitsPerLong

section

variable (holds : Holds hb members) (order : start < stop) (inside : stop ≤ hb.origSize)

include holds order inside

theorem Holds.scanned_inside {pos}
    (scanned : pos ≤ (stop - 1) / 2 ^ hb.granularity / host.bitsPerLong) :
    pos < hb.sizes host.bottom := by
  exact lt_of_le_of_lt scanned (holds.word_lt (holds.group_lt (by omega)))

theorem ClearFrom.unwrapped_iff {group}
    (first : ClearFrom members (start / 2 ^ hb.granularity) group)
    (scanned : group / host.bitsPerLong ≤ (stop - 1) / 2 ^ hb.granularity / host.bitsPerLong) :
    Unwrapped hb start stop ↔ group < 2 ^ host.bitsPerLong := by
  have bit_iff : ∀ other ≤ group, hb.bit host.bottom other = true ↔ other ∈ members := by
    intro other upper
    refine holds.bit_bottom (holds.scanned_inside order inside (le_trans ?_ scanned))
    exact Nat.div_le_div_right upper
  constructor
  · intro unwrapped
    refine unwrapped group first.after scanned ?_ fun earlier lower upper => ?_
    · rw [Bool.eq_false_iff, Ne, bit_iff group le_rfl]
      exact first.clear
    · rw [bit_iff earlier (le_of_lt upper)]
      exact first.least earlier lower upper
  · intro small other after _ clear least
    -- The first clear bit is the only one without a clear bit before it.
    by_contra large
    have isSet := (bit_iff group le_rfl).mp (least group first.after (by omega))
    exact first.clear isSet

theorem unwrapped_of_full (full : ∀ group, start / 2 ^ hb.granularity ≤ group →
      group / host.bitsPerLong < (stop - 1) / 2 ^ hb.granularity / host.bitsPerLong + 1 →
        group ∈ members) :
    Unwrapped hb start stop := by
  intro group after scanned clear _
  have mem := full group after (by omega)
  rw [(holds.bit_bottom (holds.scanned_inside order inside scanned)).mpr mem] at clear
  contradiction

end

theorem HostLong.wrap_eq (host : HostLong) :
    2 ^ host.bitsPerLong = 2 ^ (host.bitsPerLong - host.bitsPerLevel) * host.bitsPerLong := by
  cases host <;> rfl

/-- A bitmap that `size_t` can number has no wrapped answer. -/
theorem unwrapped_of_size (holds : Holds hb members) (order : start < stop)
    (inside : stop ≤ hb.origSize)
    (small : hb.size ≤ 2 ^ host.bitsPerLong) : Unwrapped hb start stop := by
  intro group _ scanned _ _
  have last := holds.group_lt (show stop - 1 < hb.origSize by omega)
  -- A whole last word is still below the bound.
  rw [host.wrap_eq] at small ⊢
  rw [← Nat.div_lt_iff_lt_mul host.bitsPerLong_pos]
  refine lt_of_le_of_lt scanned ?_
  rw [Nat.div_lt_iff_lt_mul host.bitsPerLong_pos]
  omega

/-- The range is cut at the bitmap's size. -/
theorem zeroEndBit_eq (holds : Holds hb members) {count : Nat}
    (inside : start < hb.origSize) (some_ : count ≠ 0) :
    zeroEndBit hb start count = some
        ((min (start + count) hb.origSize - 1) / 2 ^ hb.granularity + 1) := by
  have bounded := holds.original
  have pos := Nat.two_pow_pos hb.granularity
  rw [zeroEndBit, Int.toNat_natCast, Int.toNat_natCast]
  by_cases far : count > hb.origSize - start
  · rw [if_pos far, Nat.min_eq_right (by omega), holds.groups,
      groupsFor_eq holds.original holds.granular, ← add_div_right _ pos]
    congr 2
    omega
  · rw [if_neg far, Nat.min_eq_left (by omega), int64_eq (by omega) (by omega),
      map_some, shiftRight_eq_div_pow]
    congr 3
    omega

theorem words_upto (host : HostLong) {last} (small : last < 2 ^ 63) :
    ((last + 1 + host.bitsPerLong - 1) % 2 ^ 64) >>> host.bitsPerLevel =
    last / host.bitsPerLong + 1 := by
  have few : host.bitsPerLong ≤ 64 := by cases host <;> decide
  rw [mod_eq_of_lt (by omega), host.shiftRight_eq, ← add_div_right _ host.bitsPerLong_pos]
  congr 1
  omega

/-- The item of a bit before the end: the start if it lies in the bit's group. -/
theorem zeroItem_before {endBit pos cur group}
    (group_eq : (pos * host.bitsPerLong + (~~~cur).ctz.toNat) % 2 ^ host.bitsPerLong = group)
    (before : group < endBit) (room : group * 2 ^ hb.granularity < 2 ^ 63) :
    zeroItem hb start endBit pos cur =
      if start / 2 ^ hb.granularity < group then some ((group * 2 ^ hb.granularity : Nat) : Int)
      else if start / 2 ^ hb.granularity = group then some (start : Int) else none := by
  have positive := Nat.two_pow_pos hb.granularity
  rw [zeroItem, host.shiftLeft_eq, group_eq, if_neg (by omega), Nat.shiftLeft_eq,
    int64_eq (by omega) (by omega)]
  have distance : ((start : Int) - (group * 2 ^ hb.granularity : Nat)).toNat =
      start - group * 2 ^ hb.granularity := by
    omega
  simp only [bind_eq_bind, bind_some, Int.ofNat_lt, distance, shiftRight_eq_div_pow,
    Option.pure_def, ite_not]
  have below := div_mul_le_self start (2 ^ hb.granularity)
  have above := lt_div_mul_add positive (a := start)
  rcases Nat.lt_trichotomy (start / 2 ^ hb.granularity) group with earlier | same | later
  · have next := Nat.mul_le_mul_right (2 ^ hb.granularity) earlier
    rw [Nat.succ_mul] at next
    simp [if_pos earlier, show ¬ group * 2 ^ hb.granularity < start by omega]
  · -- The start lies in the group, and less than a group after its first item.
    rw [same] at below above
    simp only [same, lt_irrefl, if_false, if_true]
    by_cases inner : group * 2 ^ hb.granularity < start
    · rw [if_pos inner, if_pos (div_eq_of_lt (by omega))]
    · rw [if_neg inner]
      congr 2
      omega
  have next := Nat.mul_le_mul_right (2 ^ hb.granularity) later
  rw [Nat.succ_mul] at next
  have apart : ¬ (start - group * 2 ^ hb.granularity) / 2 ^ hb.granularity = 0 := by
    rw [div_eq_zero_iff_lt positive]
    omega
  simp only [show group * 2 ^ hb.granularity < start by omega, if_true, if_neg apart,
    if_neg (Nat.lt_asymm later), if_neg (ne_of_gt later)]

section

variable {count : Nat} (holds : Holds hb members) (inside : start < hb.origSize) (some_ : count ≠ 0)
  (stop_eq : min (start + count) hb.origSize = stop)

include holds inside some_ stop_eq

/-- The search for a clean item reads the words of the groups of the range. -/
theorem hbitmapNextZero_eq : hbitmapNextZero hb start count =
      (zeroWord hb ((stop - 1) / 2 ^ hb.granularity / host.bitsPerLong + 1)
        (start / 2 ^ hb.granularity / host.bitsPerLong)
        (hb.levels host.bottom (start / 2 ^ hb.granularity / host.bitsPerLong) |||
          lowMask host.bitsPerLong (start / 2 ^ hb.granularity % host.bitsPerLong))).bind
              fun found =>
        match found with
        | none => some (-1)
        | some (pos, cur) => zeroItem hb start ((stop - 1) / 2 ^ hb.granularity + 1) pos cur := by
  have bounded := holds.original
  have first := holds.group_lt inside
  have inUse := hb.bitsAt_bottom.symm ▸ first
  have read : hb.word? host.bottom (start / 2 ^ hb.granularity / host.bitsPerLong) =
      some (hb.levels host.bottom (start / 2 ^ hb.granularity / host.bitsPerLong)) :=
    if_pos (holds.word_lt first)
  have small : (stop - 1) / 2 ^ hb.granularity < 2 ^ 63 :=
    lt_of_le_of_lt (div_le_self _ _) (by omega)
  rw [hbitmapNextZero, if_neg (by omega), Int.toNat_natCast, shiftRight_eq_div_pow start]
  dsimp only
  rw [host.shiftRight_eq, mod_eq_of_lt (holds.div_lt_pow inUse), read,
    zeroEndBit_eq holds inside some_, stop_eq]
  simp only [bind_eq_bind, bind_some, words_upto host small, host.and_eq]
  rw [if_neg (by omega), if_neg (not_not_intro first)]
  rfl

/-- The search for a clean item inside the bitmap: exact if the number of the first clear bit fits
`size_t`. Else it returns nothing or an item of the range, never -1, and the items up to it are
dirty. -/
theorem hbitmapNextZero_inside :
    (Unwrapped hb start stop ∧ ∃ answer, hbitmapNextZero hb start count = some answer ∧
        Finds (fun item => item / 2 ^ hb.granularity ∉ members) start stop answer) ∨
      (¬ Unwrapped hb start stop ∧ ∀ answer, hbitmapNextZero hb start count = some answer →
        ∃ item : Nat, answer = item ∧ start ≤ item ∧ item < stop ∧
          ∀ other, start ≤ other → other ≤ item → other / 2 ^ hb.granularity ∈ members) := by
  rw [hbitmapNextZero_eq holds inside some_ stop_eq]
  have positive := Nat.two_pow_pos hb.granularity
  have order : start < stop := by omega
  have upper : stop ≤ hb.origSize := by omega
  have bounded := holds.original
  -- The groups of the range, and the words they are in.
  have words : start / 2 ^ hb.granularity / host.bitsPerLong ≤
    (stop - 1) / 2 ^ hb.granularity / host.bitsPerLong :=
    Nat.div_le_div_right (Nat.div_le_div_right (by omega))
  have before_iff : ∀ group, group < (stop - 1) / 2 ^ hb.granularity + 1 ↔
      group * 2 ^ hb.granularity < stop := by
    intro group
    rw [Nat.lt_succ_iff, Nat.le_div_iff_mul_le positive]
    omega
  have scanned := holds.scanned_inside order upper le_rfl
  rcases zeroWord_spec holds.toRepresents (succ_le_of_lt scanned) (lt_succ_of_le words) with
    ⟨res, full⟩ | ⟨pos, cur, res, inWords, bit, clear⟩
  · -- Every group of the scanned words is in the set.
    refine .inl ⟨unwrapped_of_full holds order upper full, -1, by rw [res]; rfl, ?_⟩
    refine finds_none_of_blocks fun group lower before => not_not_intro (full group lower ?_)
    exact lt_succ_of_le (Nat.div_le_div_right (le_of_lt_succ ((before_iff group).mpr before)))
  rw [res, bind_some]
  dsimp only
  have inWord := host.div_index pos bit
  generalize group_eq : pos * host.bitsPerLong + (~~~cur).ctz.toNat = group at *
  have unwrapped_iff := clear.unwrapped_iff holds order upper (by omega)
  by_cases fits : group < 2 ^ host.bitsPerLong
  · refine .inl ⟨unwrapped_iff.mpr fits, ?_⟩
    by_cases before : group < (stop - 1) / 2 ^ hb.granularity + 1
    · have inRange := (before_iff group).mp before
      refine ⟨_, ?_, finds_of_block positive order clear.after clear.clear
        (fun earlier lower upper => not_not_intro (clear.least earlier lower upper)) inRange⟩
      rw [zeroItem_before (by rw [group_eq, mod_eq_of_lt fits]) before (by omega)]
      by_cases later : start / 2 ^ hb.granularity < group
      · have := (Nat.div_lt_iff_lt_mul positive).mp later
        rw [if_pos later, Nat.max_eq_right (by omega)]
      · have same : start / 2 ^ hb.granularity = group :=
          le_antisymm clear.after (Nat.le_of_not_lt later)
        have := div_mul_le_self start (2 ^ hb.granularity)
        rw [if_neg later, if_pos same, Nat.max_eq_left (same ▸ this)]
    -- The first clear bit is behind the range.
    refine ⟨-1, ?_, finds_none_of_blocks fun place lower inRange =>
      not_not_intro (clear.least place lower ?_)⟩
    · rw [zeroItem, host.shiftLeft_eq, group_eq, mod_eq_of_lt fits, if_pos (by omega)]
      rfl
    · have := (before_iff place).mpr inRange
      omega
  refine .inr ⟨fun unwrapped => fits (unwrapped_iff.mp unwrapped), fun answer ret => ?_⟩
  -- The wrapped number lies before the words scanned last, so before the end and before the clear
  -- bit.
  have inLastWords : 2 ^ host.bitsPerLong ≤ (stop - 1) / 2 ^ hb.granularity := by
    refine le_trans ?_ (div_mul_le_self _ host.bitsPerLong)
    rw [host.wrap_eq] at fits ⊢
    refine Nat.mul_le_mul_right _ (le_trans ?_ (le_of_lt_succ inWords))
    rw [← inWord, Nat.le_div_iff_mul_le host.bitsPerLong_pos]
    exact Nat.le_of_not_lt fits
  have inRange := (before_iff (group % 2 ^ host.bitsPerLong)).mp (by omega)
  rw [zeroItem_before (by rw [group_eq]) (by omega) (by omega)] at ret
  -- The groups up to that of the answer come before the clear bit.
  have dirty : ∀ item, item / 2 ^ hb.granularity = group % 2 ^ host.bitsPerLong →
    ∀ other, start ≤ other →
      other ≤ item → other / 2 ^ hb.granularity ∈ members := fun item same other lower upper =>
    clear.least _ (Nat.div_le_div_right lower)
      (lt_of_le_of_lt (same ▸ Nat.div_le_div_right upper) (by omega))
  split at ret
  · rename_i later
    have := (Nat.div_lt_iff_lt_mul positive).mp later
    exact ⟨_,
      (Option.some.inj ret).symm, by omega, inRange, dirty _ (Nat.mul_div_cancel _ positive)⟩
  · obtain ⟨same, rfl⟩ := ite_some_none_eq_some.mp ret
    exact ⟨start, rfl, le_rfl, order, dirty start same⟩

end

variable {maxCount first limit : Nat}

structure FirstDirty (hb : HBitmap host) (start stop first : Nat) : Prop where
  after : start ≤ first
  before : first < stop
  dirty : hbitmapGet hb first = some true
  least : ∀ item, start ≤ item → item < first → hbitmapGet hb item ≠ some true

/-- The longest run of dirty items from the first on, cut at the end and a length. -/
structure DirtyRun (hb : HBitmap host) (stop maxCount first length : Nat) : Prop where
  some_ : 0 < length
  dirty : ∀ item, first ≤ item → item < first + length → hbitmapGet hb item = some true
  within : first + length ≤ stop
  short : length ≤ maxCount
  longest : first + length = stop ∨ length = maxCount ∨ hbitmapGet hb (first + length) ≠ some true

/-- The answer for an area: the first dirty item with its run, or nothing. -/
def FindsArea (hb : HBitmap host) (start stop maxCount : Nat) : Option (Int × Int) → Prop
  | none => ∀ item, start ≤ item → item < stop → hbitmapGet hb item ≠ some true
  | some (dirtyStart, dirtyCount) => ∃ first length : Nat,
      dirtyStart = first ∧ dirtyCount = length ∧
      FirstDirty hb start stop first ∧ DirtyRun hb stop maxCount first length

theorem FirstDirty.unique {other} (one : FirstDirty hb start stop first)
    (two : FirstDirty hb start stop other) : first = other := by
  rcases Nat.lt_trichotomy first other with before | same | after
  · exact absurd one.dirty (two.least first one.after before)
  · exact same
  · exact absurd two.dirty (one.least other two.after after)

/-- The area ends where the search for a clean item does. -/
theorem hbitmapNextDirtyArea_eq (holds : Holds hb members) (limited : 0 < maxCount)
    (found : FirstDirty hb start (min stop hb.origSize) first)
    (limit_eq : min (min stop hb.origSize) (first + maxCount) = limit) :
    hbitmapNextDirtyArea hb start stop maxCount =
      (hbitmapNextZero hb first (limit - first : Nat)).bind fun nextZero =>
        (int64 ((if nextZero ≥ 0 then nextZero else limit) - first)).bind fun length =>
          some (some ((first : Int), length)) := by
  have bounded := holds.original
  have after := found.after
  have before := found.before
  obtain ⟨answer, ret, finds⟩ := hbitmapNextDirty_spec holds start (min stop hb.origSize - start)
  rw [Nat.min_eq_left (by omega), Nat.add_sub_cancel' (by omega)] at finds
  -- The search for a dirty item returns the first one.
  have answer_eq : answer = first := by
    rcases finds with ⟨place, is, lower, upper, here, least⟩ | ⟨_, none⟩
    · rw [is, found.unique ⟨lower, upper, here, least⟩]
    · exact absurd found.dirty (none first after before)
  subst answer_eq
  have length_eq : (min (stop : Int) hb.origSize - start) =
    (min stop hb.origSize - start : Nat) := by omega
  have rest_eq : (min (stop : Int) hb.origSize - first) =
    (min stop hb.origSize - first : Nat) := by omega
  have limit_cast : (first : Int) + min ((min stop hb.origSize - first : Nat) : Int)
    maxCount = limit := by omega
  have count_eq : (limit : Int) - first = (limit - first : Nat) := by omega
  rw [hbitmapNextDirtyArea, if_neg (by omega)]
  rw [if_neg (by omega), length_eq, int64_eq (by omega) (by omega)]
  simp only [bind_eq_bind, bind_some, ret]
  rw [if_neg (by omega), rest_eq, int64_eq (by omega) (by omega)]
  simp only [bind_some]
  rw [limit_cast, int64_eq (by omega) (by omega), bind_some, count_eq,
    int64_eq (by omega) (by omega)]
  rfl

/-- An end for an area: all before is dirty, and it is right unless the search wraps. -/
structure EndsAt (hb : HBitmap host) (members : Finset Nat) (first limit ends : Nat) : Prop where
  after : first ≤ ends
  upper : ends ≤ limit
  dirty : ∀ item, first ≤ item → item < ends → item / 2 ^ hb.granularity ∈ members
  last : Unwrapped hb first limit ∧ (ends = limit ∨ ends / 2 ^ hb.granularity ∉ members) ∨
    ¬ Unwrapped hb first limit ∧ ends < limit ∧ ends / 2 ^ hb.granularity ∈ members

/-- For the first dirty item: nothing if the search wraps, or the area to such an end. -/
theorem hbitmapNextDirtyArea_first (holds : Holds hb members) (limited : 0 < maxCount)
    (found : FirstDirty hb start (min stop hb.origSize) first)
    (limit_eq : min (min stop hb.origSize) (first + maxCount) = limit) :
    hbitmapNextDirtyArea hb start stop maxCount = none ∧ ¬ Unwrapped hb first limit ∨
      ∃ ends : Nat, EndsAt hb members first limit ends ∧
        hbitmapNextDirtyArea hb start stop maxCount =
            some (some ((first : Int), ((ends - first : Nat) : Int))) := by
  have bounded := holds.original
  have before := found.before
  rw [hbitmapNextDirtyArea_eq holds limited found limit_eq]
  -- Wherever the area ends, its length is reported as far as that.
  have reports : ∀ (nextZero : Int) (ends : Nat),
    (if nextZero ≥ 0 then nextZero else limit) = (ends : Int) →
      first ≤ ends → ends ≤ limit →
      ((int64 ((if nextZero ≥ 0 then nextZero else limit) - first)).bind fun length =>
        some (some ((first : Int), length))) =
            some (some ((first : Int), ((ends - first : Nat) : Int))) := by
    intro nextZero ends ends_eq after upper
    rw [ends_eq, ← Int.ofNat_sub after, int64_eq (by omega) (by omega), bind_some]
  rcases hbitmapNextZero_inside holds (by omega) (by omega)
    (show min (first + (limit - first)) hb.origSize = limit by omega)
    with ⟨unwrapped, answer, ret, finds⟩ | ⟨wrapped, dirty⟩
  · rw [ret, bind_some]
    rcases finds with ⟨place, rfl, lower, before, clear, least⟩ | ⟨rfl, full⟩
    · exact .inr
        ⟨place, ⟨lower, by omega, fun item after until_ => not_not.mp (least item after until_),
        .inl ⟨unwrapped, .inr clear⟩⟩, reports _ _ (if_pos (by omega)) lower (by omega)⟩
    · exact .inr ⟨limit, ⟨by omega, le_rfl, fun item after until_ =>
        not_not.mp (full item after until_),
        .inl ⟨unwrapped, .inl rfl⟩⟩, reports _ _ (if_neg (by omega)) (by omega) le_rfl⟩
  cases ret : hbitmapNextZero hb first (limit - first : Nat) with
  | none => exact .inl ⟨rfl, wrapped⟩
  | some answer =>
    obtain ⟨item, rfl, after, before, members_⟩ := dirty answer ret
    exact .inr ⟨item, ⟨after, by omega, fun other lower until_ => members_ other lower (by omega),
      .inr ⟨wrapped, before, members_ item after le_rfl⟩⟩,
        reports _ _ (if_pos (by omega)) after (by omega)⟩

/-- Without a dirty item there is no area. -/
theorem hbitmapNextDirtyArea_none (holds : Holds hb members) (limited : 0 < maxCount)
    (clean : ∀ first, ¬ FirstDirty hb start (min stop hb.origSize) first) :
    hbitmapNextDirtyArea hb start stop maxCount = some none ∧
      FindsArea hb start (min stop hb.origSize) maxCount none := by
  have bounded := holds.original
  obtain ⟨answer, ret, finds⟩ := hbitmapNextDirty_spec holds start (min stop hb.origSize - start)
  rcases finds with ⟨place, _, lower, upper, here, least⟩ | ⟨is, none⟩
  · exact absurd ⟨lower, by omega, here, least⟩ (clean place)
  subst is
  refine ⟨?_, fun item lower upper => none item lower (by omega)⟩
  rw [hbitmapNextDirtyArea, if_neg (by omega)]
  by_cases empty : (start : Int) ≥ min (stop : Int) hb.origSize
  · rw [if_pos empty]
    rfl
  · have length_eq : (min (stop : Int) hb.origSize - start) =
      (min stop hb.origSize - start : Nat) := by omega
    rw [if_neg empty, length_eq, int64_eq (by omega) (by omega)]
    simp only [bind_eq_bind, bind_some, ret]
    rfl

/-- The area is right exactly when the search for its end does not wrap. -/
theorem hbitmapNextDirtyArea_found (holds : Holds hb members) (limited : 0 < maxCount)
    (found : FirstDirty hb start (min stop hb.origSize) first) :
    (∃ answer, hbitmapNextDirtyArea hb start stop maxCount = some answer ∧
        FindsArea hb start (min stop hb.origSize) maxCount answer) ↔
      Unwrapped hb first (min (min stop hb.origSize) (first + maxCount)) := by
  have before := found.before
  rcases hbitmapNextDirtyArea_first holds limited found rfl
    with ⟨stuck, wrapped⟩ | ⟨ends, ⟨after, upper, dirty, last⟩, ret⟩
  · rw [stuck]
    exact ⟨fun ⟨_, answered, _⟩ => (nomatch answered), fun unwrapped => absurd unwrapped wrapped⟩
  rw [ret]
  rcases last with ⟨unwrapped, last⟩ | ⟨wrapped, early, mem⟩
  · refine ⟨fun _ => unwrapped, fun _ => ⟨_, rfl, first, ends - first, rfl, rfl, found, ?_,
      fun item lower before => (holds.get_true_iff item).mpr
        (dirty item lower (by omega)), by omega, by omega, ?_⟩⟩
    · -- The first dirty item is not the end.
      have other : first ≠ ends := by
        rintro rfl
        exact last.elim (by omega) fun clear => clear ((holds.get_true_iff first).mp found.dirty)
      omega
    · rw [Nat.add_sub_cancel' after, Ne, holds.get_true_iff]
      rcases last with last | clear
      · omega
      · exact .inr (.inr clear)
  refine ⟨?_, fun unwrapped => absurd unwrapped wrapped⟩
  rintro ⟨answer, answered, finds⟩
  cases answered
  -- The reported run ends before a dirty item inside the range, so it is not the longest.
  obtain ⟨first', length, first_eq, length_eq, _, run⟩ := finds
  obtain rfl : first = first' := by omega
  obtain rfl : ends - first = length := by omega
  rcases run.longest with last | cut | clean
  · omega
  · omega
  · rw [Nat.add_sub_cancel' after, Ne, holds.get_true_iff] at clean
    exact absurd mem clean

/-- What `hbitmap_next_zero` reads before it checks the range is in the array. -/
def ReadsInside (hb : HBitmap host) (start : Nat) : Prop :=
  ((start >>> hb.granularity) >>> host.bitsPerLevel) % 2 ^ host.bitsPerLong < hb.sizes host.bottom

instance (hb : HBitmap host) (start : Nat) : Decidable (ReadsInside hb start) :=
  inferInstanceAs (Decidable (_ < _))

theorem Holds.readsInside (holds : Holds hb members)
    (inside : start < hb.origSize) : ReadsInside hb start := by
  have inUse := hb.bitsAt_bottom.symm ▸ holds.group_lt inside
  rw [ReadsInside, shiftRight_eq_div_pow start, host.shiftRight_eq,
    mod_eq_of_lt (holds.div_lt_pow inUse)]
  exact holds.word_lt (holds.group_lt inside)

/-- Past the end the answer is -1, if the word may be read at all. -/
theorem hbitmapNextZero_outside {count : Nat} (nothing : start ≥ hb.origSize ∨ count = 0) :
    hbitmapNextZero hb start count = if ReadsInside hb start then some (-1) else none := by
  rw [hbitmapNextZero, if_neg (by omega), Int.toNat_natCast]
  dsimp only
  by_cases reads : ReadsInside hb start
  · have word : hb.word? host.bottom
      (((start >>> hb.granularity) >>> host.bitsPerLevel) % 2 ^ host.bitsPerLong) =
        some _ := if_pos reads
    rw [word, if_pos reads]
    simp only [bind_eq_bind, bind_some]
    rw [if_pos (by omega)]
    rfl
  · have word : hb.word? host.bottom
      (((start >>> hb.granularity) >>> host.bitsPerLevel) % 2 ^ host.bitsPerLong) =
        none := if_neg reads
    rw [word, if_neg reads]
    rfl

/-- The searches are exact, apart from two slips of the one for a clean item: a start far behind the
bitmap reads outside the array, and the number of the first clear bit wraps where `size_t` is too
small. -/
theorem hbitmap_searches_exact_iff (holds : Holds hb members) :
    (∀ start count : Nat, ∃ answer, hbitmapNextDirty hb start count = some answer ∧
      Finds (fun item => hbitmapGet hb item = some true) start
        (min (start + count) hb.origSize) answer) ∧
    (∀ start count : Nat, (∃ answer, hbitmapNextZero hb start count = some answer ∧
        Finds (fun item => hbitmapGet hb item = some false) start
          (min (start + count) hb.origSize) answer) ↔ ReadsInside hb start ∧
        (start < hb.origSize → count ≠ 0 → Unwrapped hb start (min (start + count) hb.origSize))) ∧
    ∀ start stop maxCount : Nat, 0 < maxCount →
      ((∃ answer, hbitmapNextDirtyArea hb start stop maxCount = some answer ∧
        FindsArea hb start (min stop hb.origSize) maxCount answer) ↔
      ∀ first, FirstDirty hb start (min stop hb.origSize) first →
        Unwrapped hb first (min (min stop hb.origSize) (first + maxCount))) := by
  refine ⟨hbitmapNextDirty_spec holds, fun start count => ?_, fun start stop maxCount limited => ?_⟩
  · by_cases nothing : start ≥ hb.origSize ∨ count = 0
    · -- Nothing to search: only the early read matters.
      rw [hbitmapNextZero_outside nothing]
      by_cases reads : ReadsInside hb start
      · rw [if_pos reads]
        refine iff_of_true ⟨-1, rfl, .inr ⟨rfl, fun item lower upper => ?_⟩⟩ ⟨reads, fun _ _ => ?_⟩
        · omega
        · omega
      · rw [if_neg reads]
        exact iff_of_false (by simp) fun both => reads both.1
    have inside : start < hb.origSize := by omega
    have some_ : count ≠ 0 := by omega
    simp only [holds.readsInside inside, inside, some_, true_and, true_implies,
      ne_eq, not_false_eq_true]
    rcases hbitmapNextZero_inside holds inside some_ rfl with
      ⟨unwrapped, answer, returned, finds⟩ | ⟨wrapped, dirty⟩
    · refine iff_of_true ⟨answer, returned, finds.congr fun item lower upper => ?_⟩ unwrapped
      exact (holds.get_false_iff (by omega)).symm
    refine iff_of_false ?_ wrapped
    rintro ⟨answer, returned, finds⟩
    obtain ⟨item, rfl, after, upper, member⟩ := dirty answer returned
    -- A dirty item is not a clean one, and an item is not -1.
    rcases finds with ⟨place, same, _, _, clean, _⟩ | ⟨same, _⟩
    · obtain rfl : item = place := by omega
      exact (holds.get_false_iff (by omega)).mp clean (member item after le_rfl)
    · omega
  · by_cases found : ∃ first, FirstDirty hb start (min stop hb.origSize) first
    · obtain ⟨first, found⟩ := found
      rw [hbitmapNextDirtyArea_found holds limited found]
      exact ⟨fun unwrapped other also => found.unique also ▸ unwrapped, fun all => all first found⟩
    · have clean := not_exists.mp found
      exact iff_of_true ⟨none, hbitmapNextDirtyArea_none holds limited clean⟩ fun first dirty =>
        absurd dirty (clean first)

/-- The bitmap that a run of updates leaves: every search from item 5 on is exact. -/
theorem hbitmap_searches_exact_iff_sample :
    ∃ hb, runFrom Update.step (hbitmapAlloc .bits64 100 3) sampleUpdates = some hb ∧
      (∃ answer, hbitmapNextDirty hb (5 : Nat) (40 : Nat) = some answer ∧
        Finds (fun item => hbitmapGet hb item = some true) 5 (min (5 + 40) hb.origSize) answer) ∧
      (∃ answer, hbitmapNextZero hb (5 : Nat) (40 : Nat) = some answer ∧
        Finds (fun item => hbitmapGet hb item = some false) 5 (min (5 + 40) hb.origSize) answer) ∧
      ∃ answer, hbitmapNextDirtyArea hb (5 : Nat) (90 : Nat) (7 : Nat) = some answer ∧
        FindsArea hb 5 (min 90 hb.origSize) 7 answer := by
  have returns : (runFrom Update.step (hbitmapAlloc .bits64 100 3) sampleUpdates).isSome :=
    by decide +kernel
  obtain ⟨hb, reached⟩ := isSome_iff_exists.mp returns
  obtain ⟨members, holds⟩ := reached_holds reached
  have inside : ∀ hb ∈ runFrom Update.step (hbitmapAlloc .bits64 100 3) sampleUpdates,
      5 < hb.origSize := by
    decide +kernel
  have small : hb.size ≤ 2 ^ HostLong.bitsPerLong .bits64 := le_trans holds.bounded (by decide)
  obtain ⟨dirty, zero, area⟩ := hbitmap_searches_exact_iff holds
  refine ⟨hb, reached, dirty 5 40,
    (zero 5 40).mpr ⟨holds.readsInside (inside hb reached), fun start some_ => ?_⟩,
    (area 5 90 7 (by decide)).mpr fun first found => ?_⟩
  · exact unwrapped_of_size holds (by omega) (by omega) small
  · have := found.before
    exact unwrapped_of_size holds (by omega) (by omega) small

/-- A new bitmap of one item: a search behind it reads outside the only word. -/
theorem hbitmapNextZero_reads_outside :
    ∃ hb, hbitmapAlloc .bits64 1 0 = some hb ∧ hbitmapNextZero hb 64 1 = none := by
  exact ⟨_, rfl, by decide⟩

end Qemu.Util
