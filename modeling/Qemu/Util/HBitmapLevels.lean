import Qemu.Lib.Pyramid
import Qemu.Util.HBitmap

/-! Range updates of a bitmap: one level, and those above that have to follow. -/

namespace Qemu.Util

open WordBits Pyramid Nat HBitmap HostLong

variable {host : HostLong} {hb hb' hb'' : HBitmap host} {level start stop : Nat}
    {value : Bool} {last : Nat}

theorem HostLong.bitsPerLong_pos (host : HostLong) : 0 < host.bitsPerLong := Nat.two_pow_pos _

theorem HostLong.shiftRight_eq (host : HostLong) (n : Nat) :
    n >>> host.bitsPerLevel = n / host.bitsPerLong :=
  shiftRight_eq_div_pow _ _

theorem HostLong.shiftLeft_eq (host : HostLong) (n : Nat) :
    n <<< host.bitsPerLevel = n * host.bitsPerLong :=
  Nat.shiftLeft_eq _ _

theorem HostLong.and_eq (host : HostLong) (n : Nat) :
    n &&& (host.bitsPerLong - 1) = n % host.bitsPerLong :=
  and_two_pow_sub_one_eq_mod _ _

theorem nextWordStart_eq (host : HostLong) (start : Nat) :
    nextWordStart host start = (start / host.bitsPerLong + 1) * host.bitsPerLong := by
  have pos := host.bitsPerLong_pos
  rw [nextWordStart, HostLong.bitsPerLong, or_pow_sub_one, Nat.mul_comm, Nat.add_mul, Nat.one_mul]
  rw [HostLong.bitsPerLong] at pos
  omega

theorem HostLong.wordsFor_eq (host : HostLong) (bits : Nat) :
    host.wordsFor bits = blocks host.bitsPerLong bits := by
  rw [wordsFor, host.shiftRight_eq, blocks]

theorem HostLong.split_index (host : HostLong) (index : Nat) :
    index / host.bitsPerLong * host.bitsPerLong + index % host.bitsPerLong = index := by
  rw [Nat.mul_comm]
  exact div_add_mod _ _

theorem HostLong.div_index (host : HostLong) (pos : Nat) {bit} (within : bit < host.bitsPerLong) :
    (pos * host.bitsPerLong + bit) / host.bitsPerLong = pos := by
  rw [add_comm, add_mul_div_right _ _ host.bitsPerLong_pos, div_eq_of_lt within, zero_add]

theorem HostLong.mod_index (host : HostLong) (pos : Nat) {bit} (within : bit < host.bitsPerLong) :
    (pos * host.bitsPerLong + bit) % host.bitsPerLong = bit := by
  rw [add_comm, add_mul_mod_self_right, mod_eq_of_lt within]

theorem HostLong.bounds_of_div (host : HostLong) {index pos}
    (inWord : index / host.bitsPerLong = pos) :
    pos * host.bitsPerLong ≤ index ∧ index < (pos + 1) * host.bitsPerLong := by
  have split := host.split_index index
  have position := mod_lt index host.bitsPerLong_pos
  rw [inWord] at split
  rw [Nat.add_mul, Nat.one_mul]
  omega

/-- A bit of a level, by its index in the level. -/
def HBitmap.bit (hb : HBitmap host) (level index : Nat) : Bool :=
  (hb.levels level (index / host.bitsPerLong)).getLsbD (index % host.bitsPerLong)

theorem HBitmap.word_eq_zero_iff (hb : HBitmap host) (level pos : Nat) :
    hb.levels level pos = 0#(host.bitsPerLong) ↔ ∀ index, index / host.bitsPerLong = pos →
        hb.bit level index = false := by
  rw [eq_zero_iff]
  constructor
  · rintro none index rfl
    exact none _ (mod_lt _ host.bitsPerLong_pos)
  · intro none bit within
    have := none (pos * host.bitsPerLong + bit) (host.div_index pos within)
    rwa [HBitmap.bit, host.div_index pos within, host.mod_index pos within] at this

/-- A range of bits of one level is set to a value. -/
structure RangeSet (hb hb' : HBitmap host) (level start stop : Nat) (value : Bool) : Prop where
  frame : hb' = { hb with levels := hb'.levels }
  others : ∀ level' ≠ level, hb'.levels level' = hb.levels level'
  bits : ∀ index, hb'.bit level index = if start ≤ index ∧
    index < stop then value else hb.bit level index

theorem RangeSet.sizes (changes : RangeSet hb hb' level start stop value) :
    hb'.sizes = hb.sizes := by
  rw [changes.frame]

theorem RangeSet.size (changes : RangeSet hb hb' level start stop value) : hb'.size = hb.size := by
  rw [changes.frame]

theorem RangeSet.refl (hb : HBitmap host) (level start : Nat) (value : Bool) :
    RangeSet hb hb level start start value :=
  ⟨rfl, fun _ _ => rfl, fun index => (if_neg (by omega)).symm⟩

theorem RangeSet.trans {middle} (first : RangeSet hb hb' level start middle value)
    (second : RangeSet hb' hb'' level middle stop value) (lower : start ≤ middle)
    (upper : middle ≤ stop) : RangeSet hb hb'' level start stop value where
  frame := by
    rw [second.frame, first.frame]
  others := fun level' other => (second.others level' other).trans (first.others level' other)
  bits := by
    intro index
    rw [second.bits, first.bits]
    by_cases before : index < middle
    · rw [if_neg (by omega)]
      congr 1
      exact propext (by omega)
    · have out : ¬ (start ≤ index ∧ index < middle) := by omega
      rw [if_neg out]
      congr 1
      exact propext (by omega)

theorem RangeSet.word_eq (changes : RangeSet hb hb' level start stop value) {pos}
    (out : (pos + 1) * host.bitsPerLong ≤ start ∨ stop ≤ pos * host.bitsPerLong) :
    hb'.levels level pos = hb.levels level pos := by
  have word_ext (same : ∀ index, index / host.bitsPerLong = pos →
    hb'.bit level index = hb.bit level index) :
      hb'.levels level pos = hb.levels level pos := by
    apply BitVec.eq_of_getLsbD_eq
    intro bit within
    have := same (pos * host.bitsPerLong + bit) (host.div_index pos within)
    rwa [HBitmap.bit, HBitmap.bit, host.div_index pos within, host.mod_index pos within] at this
  refine word_ext fun index inWord => ?_
  have := host.bounds_of_div inWord
  rw [changes.bits, if_neg (by omega)]

/-- The mask has the bits of the range within its word. -/
theorem elemMask_spec (sameWord : last / host.bitsPerLong = start / host.bitsPerLong)
    (order : start ≤ last) : ∃ mask, elemMask host start last = some mask ∧
      ∀ index, index / host.bitsPerLong = start / host.bitsPerLong →
        mask.getLsbD (index % host.bitsPerLong) = decide (start ≤ index ∧ index < last + 1) := by
  have pos := mod_lt last host.bitsPerLong_pos
  have startSplit := host.split_index start
  have lastSplit := host.split_index last
  rw [sameWord] at lastSplit
  refine ⟨_, if_pos ⟨by rw [host.shiftRight_eq, host.shiftRight_eq, sameWord], order⟩,
    fun index inWord => ?_⟩
  have indexSplit := host.split_index index
  rw [inWord] at indexSplit
  rw [host.and_eq, host.and_eq, getLsbD_rangeMask (by omega) pos]
  exact decide_eq_decide.mpr (by omega)

/-- Writing a word whose bits changed in a range sets the range. -/
theorem setWord_rangeSet {pos word value} (inWord : start / host.bitsPerLong = pos)
    (sameWord : last / host.bitsPerLong = pos)
    (bits : ∀ index, index / host.bitsPerLong = pos → word.getLsbD (index % host.bitsPerLong) =
      if start ≤ index ∧ index < last + 1 then value else hb.bit level index) :
    RangeSet hb (hb.setWord level pos word) level start (last + 1) value where
  frame := rfl
  others := by
    intro level' other
    funext pos'
    exact if_neg fun both => other both.1
  bits := by
    intro index
    by_cases here : index / host.bitsPerLong = pos
    · rw [← bits index here, HBitmap.bit, HBitmap.setWord]
      simp [here]
    -- An index of another word is not in the range.
    have out : ¬ (start ≤ index ∧ index < last + 1) := by
      intro ⟨lower, upper⟩
      have := Nat.div_le_div_right lower (c := host.bitsPerLong)
      have := Nat.div_le_div_right (le_of_lt_succ upper) (c := host.bitsPerLong)
      omega
    rw [if_neg out, HBitmap.bit, HBitmap.setWord]
    simp only [here, and_false, if_false]
    rfl

/-- Setting bits of a word succeeds, and a word that stays had some of them. -/
theorem updateWord_set (order : start ≤ last) {pos} (inWord : start / host.bitsPerLong = pos)
    (sameWord : last / host.bitsPerLong = pos) (inside : pos < hb.sizes level) :
    ∃ changed hb', updateWord (hbSetElem · start last) hb level pos = some (changed, hb') ∧
      RangeSet hb hb' level start (last + 1) true ∧
      (changed = false → hb.levels level pos ≠ 0#(host.bitsPerLong)) := by
  obtain ⟨mask, mask_eq, bits⟩ := elemMask_spec (sameWord.trans inWord.symm) order
  rw [inWord] at bits
  refine ⟨hb.levels level pos ≠ hb.levels level pos ||| mask,
    hb.setWord level pos (hb.levels level pos ||| mask), ?_,
    setWord_rangeSet inWord sameWord ?_, ?_⟩
  · simp only [updateWord, HBitmap.word?, inside, if_true, hbSetElem, mask_eq,
      Option.bind_eq_bind, Option.bind_some]
    rfl
  · intro index here
    rw [BitVec.getLsbD_or, bits index here, HBitmap.bit, here]
    by_cases inRange : start ≤ index ∧ index < last + 1
    · rw [decide_eq_true inRange, if_pos inRange, Bool.or_true]
    · rw [decide_eq_false inRange, if_neg inRange, Bool.or_false]
  · -- The first bit of the range is in the mask, hence in the word.
    intro same
    have unchanged : hb.levels level pos = hb.levels level pos ||| mask := by simpa using same
    rw [ne_zero_iff]
    refine ⟨start % host.bitsPerLong, mod_lt _ host.bitsPerLong_pos, ?_⟩
    rw [unchanged, BitVec.getLsbD_or, bits start inWord,
      decide_eq_true ⟨Nat.le_refl start, Nat.lt_succ_of_le order⟩, Bool.or_true]

/-- Clearing reports whether the word became zero by it. -/
theorem updateWord_reset (order : start ≤ last) {pos} (inWord : start / host.bitsPerLong = pos)
    (sameWord : last / host.bitsPerLong = pos) (inside : pos < hb.sizes level) :
    ∃ blanked hb', updateWord (hbResetElem · start last) hb level pos = some (blanked, hb') ∧
      RangeSet hb hb' level start (last + 1) false ∧
      (blanked = true ↔ hb.levels level pos ≠ 0#(host.bitsPerLong) ∧
          hb'.levels level pos = 0#(host.bitsPerLong)) := by
  obtain ⟨mask, mask_eq, bits⟩ := elemMask_spec (sameWord.trans inWord.symm) order
  rw [inWord] at bits
  refine ⟨hb.levels level pos ≠ 0#(host.bitsPerLong) && hb.levels level pos &&&
    ~~~mask = 0#(host.bitsPerLong), hb.setWord level pos (hb.levels level pos &&& ~~~mask), ?_,
      setWord_rangeSet inWord sameWord ?_, ?_⟩
  · simp only [updateWord, HBitmap.word?, inside, if_true, hbResetElem, mask_eq,
      Option.bind_eq_bind, Option.bind_some]
    rfl
  · intro index here
    rw [BitVec.getLsbD_and, BitVec.getLsbD_not, bits index here, HBitmap.bit, here,
      decide_eq_true (mod_lt index host.bitsPerLong_pos)]
    by_cases inRange : start ≤ index ∧ index < last + 1
    · rw [decide_eq_true inRange, if_pos inRange, Bool.not_true, Bool.and_false, Bool.and_false]
    · rw [decide_eq_false inRange, if_neg inRange, Bool.not_false, Bool.and_true, Bool.and_true]
  · simp [HBitmap.setWord]

/-- Filling the words between the first and the last sets their bits. -/
theorem fillWords_spec {fill counts value}
    (filled : ∀ bit < host.bitsPerLong, fill.getLsbD bit = value) {lastpos left i changed}
    (remaining : lastpos = i + left) (some_left : left ≠ 0) (inside : lastpos < hb.sizes level) :
    ∃ changed' hb', fillWords fill counts level lastpos left i
      ((i + 1) * host.bitsPerLong) changed hb =
        some (lastpos * host.bitsPerLong, changed', hb') ∧
      RangeSet hb hb' level ((i + 1) * host.bitsPerLong) (lastpos * host.bitsPerLong) value ∧
      (changed' = true ↔ changed ∨ ∃ pos, i < pos ∧ pos < lastpos ∧
          counts (hb.levels level pos)) := by
  induction left generalizing i changed hb with
  | zero => exact absurd rfl some_left
  | succ left ih =>
    rw [fillWords]
    by_cases atEnd : i + 1 = lastpos
    · rw [if_pos atEnd, atEnd]
      refine ⟨changed, hb, rfl, .refl _ _ _ _, ⟨.inl, fun either => ?_⟩⟩
      rcases either with set | ⟨pos, after, before, _⟩
      · exact set
      · omega
    rw [if_neg atEnd]
    have here : i + 1 < hb.sizes level := by omega
    -- The word itself is a range of its own.
    have word : RangeSet hb (hb.setWord level (i + 1) fill) level ((i + 1) * host.bitsPerLong)
        ((i + 1 + 1) * host.bitsPerLong) value := by
      have positive := host.bitsPerLong_pos
      have stop : (i + 1 + 1) * host.bitsPerLong = (i + 1) * host.bitsPerLong +
          (host.bitsPerLong - 1) + 1 := by
        rw [Nat.add_mul (i + 1) 1, Nat.one_mul]
        omega
      rw [stop]
      refine setWord_rangeSet (Nat.mul_div_cancel _ positive)
        (host.div_index _ (by omega)) fun index inWord => ?_
      have split := host.split_index index
      have position := mod_lt index positive
      rw [inWord] at split
      rw [filled _ position, if_pos (by omega)]
    obtain ⟨changed', hb', res, rest, flag⟩ := @ih (hb.setWord level (i + 1) fill) (i + 1)
      (changed || counts (hb.levels level (i + 1))) (by omega) (by omega) inside
    refine ⟨changed', hb', ?_, ?_, ?_⟩
    · simp only [HBitmap.word?, here, if_true, Option.bind_eq_bind, Option.bind_some]
      rw [← res, Nat.add_mul (i + 1) 1, Nat.one_mul]
    · exact word.trans rest (Nat.mul_le_mul_right _ (by omega)) (Nat.mul_le_mul_right _ (by omega))
    · -- The words further on are read as they were.
      have later : ∀ pos, i + 1 < pos →
          (hb.setWord level (i + 1) fill).levels level pos = hb.levels level pos := by
        intro pos after
        exact if_neg (by omega)
      rw [flag, Bool.or_eq_true, or_assoc]
      refine or_congr_right ⟨?_, ?_⟩
      · rintro (first | ⟨pos, after, before, counted⟩)
        · exact ⟨i + 1, by omega, by omega, first⟩
        · exact ⟨pos, by omega, before, later pos after ▸ counted⟩
      · rintro ⟨pos, after, before, counted⟩
        rcases lt_or_ge (i + 1) pos with beyond | atFirst
        · exact .inr ⟨pos, beyond, before, (later pos beyond).symm ▸ counted⟩
        · obtain rfl : pos = i + 1 := by omega
          exact .inl counted

theorem nextWordStart_pred (host : HostLong) (start : Nat) : start ≤ nextWordStart host start - 1 ∧
    (nextWordStart host start - 1) / host.bitsPerLong = start / host.bitsPerLong ∧
      nextWordStart host start - 1 + 1 = (start / host.bitsPerLong + 1) * host.bitsPerLong := by
  have pos := host.bitsPerLong_pos
  have split := host.split_index start
  have position := mod_lt start pos
  have stop : nextWordStart host start = start / host.bitsPerLong * host.bitsPerLong +
      host.bitsPerLong := by
    rw [nextWordStart_eq, Nat.add_mul, Nat.one_mul]
  have last : nextWordStart host start - 1 = start / host.bitsPerLong * host.bitsPerLong +
      (host.bitsPerLong - 1) := by
    omega
  refine ⟨by omega, ?_, ?_⟩
  · rw [last, host.div_index _ (by omega)]
  · rw [← nextWordStart_eq]
    omega

/-- Setting a range succeeds; if it reports no change, no word of it was zero. -/
theorem setLevel_spec (order : start ≤ last) (inside : last / host.bitsPerLong < hb.sizes level) :
    ∃ changed hb', setLevel hb level start last = some (changed, hb') ∧
      RangeSet hb hb' level start (last + 1) true ∧
      (changed = false → ∀ pos, start / host.bitsPerLong ≤ pos → pos ≤ last / host.bitsPerLong →
        hb.levels level pos ≠ 0#(host.bitsPerLong)) := by
  have positive := host.bitsPerLong_pos
  have words : start / host.bitsPerLong ≤ last / host.bitsPerLong := Nat.div_le_div_right order
  rw [setLevel, host.shiftRight_eq, host.shiftRight_eq]
  by_cases several : start / host.bitsPerLong < last / host.bitsPerLong
  · rw [if_pos several]
    obtain ⟨afterStart, sameWord, stop⟩ := nextWordStart_pred host start
    obtain ⟨changed₁, hb₁, result₁, range₁, kept₁⟩ := @updateWord_set host hb level start
      (nextWordStart host start - 1) afterStart _ rfl sameWord (by omega)
    rw [stop] at range₁
    obtain ⟨changed₂, hb₂, result₂, range₂, kept₂⟩ :=
      @fillWords_spec host hb₁ level (BitVec.allOnes _)
      (fun word => word = 0#(host.bitsPerLong)) true (fun bit within => by simp [within])
        (last / host.bitsPerLong)
      (last / host.bitsPerLong - start / host.bitsPerLong) (start / host.bitsPerLong)
        changed₁ (by omega) (by omega) (by rw [range₁.sizes]; exact inside)
    have lastSplit := host.split_index last
    obtain ⟨changed₃, hb₃, result₃, range₃, kept₃⟩ := @updateWord_set host hb₂ level
      (last / host.bitsPerLong * host.bitsPerLong) last (by omega)
        _ (Nat.mul_div_cancel _ positive) rfl (by rw [range₂.sizes, range₁.sizes]; exact inside)
    have upper : (start / host.bitsPerLong + 1) * host.bitsPerLong ≤
      last / host.bitsPerLong * host.bitsPerLong := Nat.mul_le_mul_right _ several
    have range := (range₁.trans range₂ (by omega) upper).trans range₃ (by omega) (by omega)
    refine ⟨changed₂ || changed₃, hb₃, ?_, range, fun same pos lower upper => ?_⟩
    · simp only [result₁, Option.bind_eq_bind, Option.bind_some]
      rw [nextWordStart_eq, result₂]
      simp only [Option.bind_some, result₃]
      rfl
    · obtain ⟨same₂, same₃⟩ := Bool.or_eq_false_iff.mp same
      rw [← Bool.not_eq_true, kept₂, not_or, not_exists, Bool.not_eq_true] at same₂
      obtain ⟨same₁, middle⟩ := same₂
      -- Each word is read before anything in it changes.
      rcases lt_or_ge (start / host.bitsPerLong) pos with afterFirst | atFirst
      · have bound := Nat.mul_le_mul_right host.bitsPerLong (succ_le_of_lt afterFirst)
        rcases lt_or_ge pos (last / host.bitsPerLong) with beforeLast | atLast
        · have := middle pos
          rw [range₁.word_eq (.inr bound)] at this
          simpa [afterFirst, beforeLast] using this
        · obtain rfl : pos = last / host.bitsPerLong := by omega
          have := kept₃ same₃
          rwa [(range₁.trans range₂ (by omega) bound).word_eq (.inr le_rfl)] at this
      · obtain rfl : pos = start / host.bitsPerLong := by omega
        exact kept₁ same₁
  rw [if_neg several]
  obtain ⟨changed, hb', res, range, kept⟩ :=
    @updateWord_set host hb level start last order _ rfl (by omega) (by omega)
  refine ⟨changed, hb', res, range, fun same pos lower upper => ?_⟩
  obtain rfl : pos = start / host.bitsPerLong := by omega
  exact kept same

variable {hb' : HBitmap host} {stop : Nat}

theorem RangeSet.zero_of_zero (changes : RangeSet hb hb' level start stop false) {pos}
    (zero : hb.levels level pos = 0#(host.bitsPerLong)) :
    hb'.levels level pos = 0#(host.bitsPerLong) := by
  rw [word_eq_zero_iff] at zero ⊢
  intro index inWord
  rw [changes.bits, zero index inWord, ite_self]

theorem RangeSet.zero_of_inside (changes : RangeSet hb hb' level start stop false)
    {pos} (lower : start ≤ pos * host.bitsPerLong) (upper : (pos + 1) * host.bitsPerLong ≤ stop) :
    hb'.levels level pos = 0#(host.bitsPerLong) := by
  rw [word_eq_zero_iff]
  intro index inWord
  have := host.bounds_of_div inWord
  rw [changes.bits, if_pos (by omega)]

theorem RangeSet.ne_zero (changes : RangeSet hb hb' level start (last + 1) true)
    (order : start ≤ last) {pos} (lower : start / host.bitsPerLong ≤ pos)
    (upper : pos ≤ last / host.bitsPerLong) :
    hb'.levels level pos ≠ 0#(host.bitsPerLong) := by
  have positive := host.bitsPerLong_pos
  have bound : pos * host.bitsPerLong ≤ last := by
    rwa [le_div_iff_mul_le positive] at upper
  rw [Ne, word_eq_zero_iff]
  intro none
  -- The first bit of the word, or the start of the range if that comes later.
  rcases lt_or_ge (start / host.bitsPerLong) pos with after | atFirst
  · have := none (pos * host.bitsPerLong) (Nat.mul_div_cancel _ positive)
    rw [div_lt_iff_lt_mul positive] at after
    rw [changes.bits, if_pos (by omega)] at this
    contradiction
  · have := none start (le_antisymm lower atFirst)
    rw [changes.bits, if_pos (by omega)] at this
    contradiction

theorem HostLong.decrement_eq (host : HostLong) {n} (pos : 0 < n)
    (fits : n < 2 ^ host.bitsPerLong) : host.decrement n = n - 1 := by
  have split : n + (2 ^ host.bitsPerLong - 1) = n - 1 + 2 ^ host.bitsPerLong := by omega
  rw [decrement, split, add_mod_right, mod_eq_of_lt (by omega)]

/-- What the caller of a cleared level learns: after a change all words of the returned range are
zero, and a word of the cleared range outside of it did not become zero. -/
structure Blanks (hb hb' : HBitmap host) (level first last : Nat) (changed : Bool)
    (pos lastpos : Nat) : Prop where
  inside : changed = true → first ≤ pos ∧ pos ≤ lastpos ∧ lastpos ≤ last
  zero : changed = true → ∀ word, pos ≤ word → word ≤ lastpos →
    hb'.levels level word = 0#(host.bitsPerLong)
  kept : ∀ word, first ≤ word → word ≤ last → (changed = true → ¬ (pos ≤ word ∧ word ≤ lastpos)) →
    hb'.levels level word = 0#(host.bitsPerLong) → hb.levels level word = 0#(host.bitsPerLong)

/-- The report of a level of several words, from the first, the middle and the last of them. -/
theorem Blanks.of_flags {first final : Nat} {firstBlanked changed lastBlanked : Bool}
    (several : first < final) (firstFlag : firstBlanked ↔
      hb.levels level first ≠ 0#(host.bitsPerLong) ∧ hb'.levels level first = 0#(host.bitsPerLong))
    (middle : ∀ word, first < word → word < final → hb'.levels level word = 0#(host.bitsPerLong))
    (flag : changed ↔ firstBlanked ∨
      ∃ word, first < word ∧ word < final ∧ hb.levels level word ≠ 0#(host.bitsPerLong))
        (lastFlag : lastBlanked ↔ hb.levels level final ≠ 0#(host.bitsPerLong) ∧
        hb'.levels level final = 0#(host.bitsPerLong)) :
    Blanks hb hb' level first final (changed || lastBlanked)
      (if firstBlanked then first else first + 1) (if lastBlanked then final else final - 1) where
  inside := by
    intro either
    rw [Bool.or_eq_true, flag] at either
    -- Something became zero: the first word, one in the middle, or the last one.
    rcases either with (isFirst | ⟨word, after, before, _⟩) | isLast
    · rw [isFirst, if_pos rfl]
      split <;> omega
    · split <;> split <;> omega
    · split <;> omega
  zero := by
    intro _ word lower upper
    rcases Nat.lt_trichotomy word first with before | rfl | after
    · split at lower <;> omega
    · split at lower
      · rename_i isFirst
        exact (firstFlag.mp isFirst).2
      · omega
    rcases lt_or_ge word final with before | atLast
    · exact middle word after before
    split at upper
    · rename_i isLast
      obtain rfl : word = final := by omega
      exact (lastFlag.mp isLast).2
    · omega
  kept := by
    intro word lower upper out zero
    by_contra nonzero
    rcases Nat.lt_trichotomy word first with before | rfl | after
    · omega
    · have isFirst := firstFlag.mpr ⟨nonzero, zero⟩
      refine out (by simp [flag.mpr (.inl isFirst)]) ⟨by simp [isFirst], ?_⟩
      split <;> omega
    rcases lt_or_ge word final with before | atLast
    · have isMiddle := flag.mpr (.inr ⟨word, after, before, nonzero⟩)
      refine out (by simp [isMiddle]) ⟨?_, ?_⟩
      · split <;> omega
      · split <;> omega
    · obtain rfl : word = final := by omega
      have isLast := lastFlag.mpr ⟨nonzero, zero⟩
      refine out (by simp [isLast]) ⟨?_, by simp [isLast]⟩
      split <;> omega

theorem Blanks.of_flag {first lastpos : Nat} {blanked : Bool} (flag : blanked ↔
      hb.levels level first ≠ 0#(host.bitsPerLong) ∧
        hb'.levels level first = 0#(host.bitsPerLong)) :
    Blanks hb hb' level first first blanked first (if blanked then first else lastpos) where
  inside := by
    intro isBlank
    simp [isBlank]
  zero := by
    intro isBlank word lower upper
    rw [isBlank, if_pos rfl] at upper
    obtain rfl : word = first := by omega
    exact (flag.mp isBlank).2
  kept := by
    intro word lower upper out zero
    obtain rfl : word = first := by omega
    by_contra nonzero
    have isBlank := flag.mpr ⟨nonzero, zero⟩
    exact out isBlank ⟨le_rfl, by simp [isBlank]⟩

/-- Clearing a range of a level succeeds. -/
theorem resetLevel_spec (order : start ≤ last) (inside : last / host.bitsPerLong < hb.sizes level)
    (fits : last / host.bitsPerLong < 2 ^ host.bitsPerLong) :
    ∃ changed pos lastpos hb', resetLevel hb level start last = some (changed, pos, lastpos, hb') ∧
      RangeSet hb hb' level start (last + 1) false ∧
      Blanks hb hb' level (start / host.bitsPerLong)
          (last / host.bitsPerLong) changed pos lastpos := by
  have positive := host.bitsPerLong_pos
  have words : start / host.bitsPerLong ≤ last / host.bitsPerLong := Nat.div_le_div_right order
  rw [resetLevel, host.shiftRight_eq, host.shiftRight_eq]
  by_cases several : start / host.bitsPerLong < last / host.bitsPerLong
  · rw [if_pos several]
    obtain ⟨afterStart, sameWord, stop⟩ := nextWordStart_pred host start
    obtain ⟨blanked₁, hb₁, result₁, range₁, flag₁⟩ := @updateWord_reset host hb level start
      (nextWordStart host start - 1) afterStart _ rfl sameWord (lt_trans several inside)
    rw [stop] at range₁
    obtain ⟨changed₂, hb₂, result₂, range₂, flag₂⟩ :=
      @fillWords_spec host hb₁ level 0#(host.bitsPerLong)
      (fun word => word ≠ 0#(host.bitsPerLong)) false (fun bit within => by simp)
        (last / host.bitsPerLong)
      (last / host.bitsPerLong - start / host.bitsPerLong) (start / host.bitsPerLong)
        blanked₁ (by omega) (by omega) (by rw [range₁.sizes]; exact inside)
    have lastSplit := host.split_index last
    obtain ⟨blanked₃, hb₃, result₃, range₃, flag₃⟩ := @updateWord_reset host hb₂ level
      (last / host.bitsPerLong * host.bitsPerLong) last (by omega)
        _ (Nat.mul_div_cancel _ positive) rfl (by rw [range₂.sizes, range₁.sizes]; exact inside)
    have upper : (start / host.bitsPerLong + 1) * host.bitsPerLong ≤
      last / host.bitsPerLong * host.bitsPerLong := Nat.mul_le_mul_right _ several
    have range₁₂ := range₁.trans range₂ (by omega) upper
    have range := range₁₂.trans range₃ (by omega) (by omega)
    refine ⟨changed₂ || blanked₃, if blanked₁ then start / host.bitsPerLong
      else start / host.bitsPerLong + 1,
      if blanked₃ then last / host.bitsPerLong else host.decrement (last / host.bitsPerLong), hb₃,
        ?_, range, ?_⟩
    · simp only [result₁, Option.bind_eq_bind, Option.bind_some]
      rw [nextWordStart_eq, result₂]
      simp only [Option.bind_some, result₃]
      rfl
    -- The first word is not touched again, and the last one not before.
    have firstWord : hb₃.levels level (start / host.bitsPerLong) =
        hb₁.levels level (start / host.bitsPerLong) := by
      rw [range₃.word_eq (.inl upper), range₂.word_eq (.inl le_rfl)]
    have lastWord : hb₂.levels level (last / host.bitsPerLong) =
      hb.levels level (last / host.bitsPerLong) := range₁₂.word_eq (.inr le_rfl)
    have middleWord : ∀ word, start / host.bitsPerLong < word →
        hb₁.levels level word = hb.levels level word := fun word after =>
      range₁.word_eq (.inr (Nat.mul_le_mul_right _ after))
    rw [lastWord] at flag₃
    rw [← firstWord] at flag₁
    rw [host.decrement_eq (zero_lt_of_lt several) fits]
    refine .of_flags several flag₁ (fun word after before => ?_) ?_ flag₃
    · have fromStart : start ≤ (start / host.bitsPerLong + 1) * host.bitsPerLong := by omega
      have lower := Nat.mul_le_mul_right host.bitsPerLong (succ_le_of_lt after)
      have upper := Nat.mul_le_mul_right host.bitsPerLong (succ_le_of_lt before)
      exact range.zero_of_inside (le_trans fromStart lower) (le_trans upper (by omega))
    · rw [flag₂]
      refine or_congr_right (exists_congr fun word => and_congr_right fun after =>
        and_congr_right fun _ => ?_)
      rw [middleWord word after]
      simp
  rw [if_neg several]
  have oneWord : last / host.bitsPerLong = start / host.bitsPerLong :=
    le_antisymm (Nat.le_of_not_lt several) words
  obtain ⟨blanked, hb', res, range, flag⟩ := @updateWord_reset host hb level start last order _ rfl
    oneWord (oneWord ▸ inside)
  refine ⟨blanked, start / host.bitsPerLong, if blanked then last / host.bitsPerLong else
    host.decrement (last / host.bitsPerLong), hb', ?_, range, ?_⟩
  · simp only [res, Option.bind_eq_bind, Option.bind_some]
    rfl
  · rw [oneWord]
    exact .of_flag flag

variable {members members' : Finset Nat}

/-- The bits of the given level that are in use. -/
def HBitmap.bitsAt (hb : HBitmap host) (level : Nat) : Nat :=
  (blocks host.bitsPerLong)^[host.bottom - level] hb.size

theorem HBitmap.bitsAt_bottom (hb : HBitmap host) : hb.bitsAt host.bottom = hb.size := by
  rw [HBitmap.bitsAt, Nat.sub_self]
  rfl

/-- Each level has the words its bits take, and the sentinel a place at the top. -/
structure Sized (hb : HBitmap host) : Prop where
  bounded : hb.size ≤ 2 ^ host.logMaxSize
  words : ∀ level ≤ host.bottom, hb.sizes level = blocks host.bitsPerLong (hb.bitsAt level)

/-- A level shows a set: a bit is set if a group below it is, the sentinel always. -/
def Shows (hb : HBitmap host) (members : Finset Nat) (level : Nat) : Prop :=
  ∀ index, index / host.bitsPerLong < hb.sizes level →
    (hb.bit level index = true ↔ index ∈ coarsen host.bitsPerLong (host.bottom - level) members ∨
      level = 0 ∧ index = host.bitsPerLong - 1)

/-- A word is nonzero when its block has a member. -/
theorem Shows.word_ne_zero_iff {level pos} (shows_ : Shows hb members (level + 1))
    (isLevel : level + 1 ≤ host.bottom) (inside : pos < hb.sizes (level + 1)) :
    hb.levels (level + 1) pos ≠ 0#(host.bitsPerLong) ↔
      pos ∈ coarsen host.bitsPerLong (host.bottom - level) members := by
  have height : host.bottom - level = host.bottom - (level + 1) + 1 := by omega
  rw [Ne, hb.word_eq_zero_iff, height, mem_coarsen_succ]
  constructor
  · intro some_
    obtain ⟨index, inWord, isSet⟩ : ∃ index, index / host.bitsPerLong = pos ∧
        hb.bit (level + 1) index = true := by
      simpa using some_
    rcases (shows_ index (inWord ▸ inside)).mp isSet with mem | ⟨top, _⟩
    · exact ⟨index, mem, inWord⟩
    · omega
  · rintro ⟨index, mem, inWord⟩ none
    have isSet := (shows_ index (inWord ▸ inside)).mpr (.inl mem)
    rw [none index inWord] at isSet
    contradiction

theorem Sized.div_lt (sized : Sized hb) {level index} (isLevel : level ≤ host.bottom)
    (within : index < hb.bitsAt level) : index / host.bitsPerLong < hb.sizes level := by
  rw [sized.words level isLevel]
  exact div_lt_blocks host.bitsPerLong_pos within

theorem Sized.word_lt (sized : Sized hb) {group} (within : group < hb.size) :
    group / host.bitsPerLong < hb.sizes host.bottom :=
  sized.div_lt le_rfl (hb.bitsAt_bottom.symm ▸ within)

theorem Sized.bitsAt_eq (sized : Sized hb) {level} (isLevel : level + 1 ≤ host.bottom) :
    hb.bitsAt level = hb.sizes (level + 1) := by
  have height : host.bottom - level = host.bottom - (level + 1) + 1 := by omega
  rw [sized.words _ isLevel, HBitmap.bitsAt, height, Function.iterate_succ_apply']
  rfl

theorem Sized.top_lt (sized : Sized hb) : hb.bitsAt 0 < host.bitsPerLong := by
  have few : (blocks host.bitsPerLong)^[host.bottom] hb.size ≤ host.bitsPerLong / 2 := by
    refine iterate_blocks_le host.bitsPerLong_pos ?_ (le_trans sized.bounded ?_)
    · cases host <;> decide
    · cases host <;> decide
  refine lt_of_le_of_lt few ?_
  cases host <;> decide

theorem Sized.div_lt_pow (sized : Sized hb) {level index}
    (within : index < hb.bitsAt level) : index / host.bitsPerLong < 2 ^ host.bitsPerLong := by
  have few : hb.bitsAt level ≤ 2 ^ host.logMaxSize :=
    iterate_blocks_le host.bitsPerLong_pos (Nat.two_pow_pos _)
      (le_trans sized.bounded (Nat.le_mul_of_pos_right _ (Nat.pow_pos host.bitsPerLong_pos)))
  refine Nat.div_lt_of_lt_mul (lt_of_lt_of_le (lt_of_lt_of_le within few) ?_)
  cases host <;> decide

/-- A range update from one set to another, which the levels below show already: in the range the
new set has all bits or none, elsewhere the sets agree. -/
structure Climbs (hb : HBitmap host) (members members' : Finset Nat)
    (level start last : Nat) (value : Bool) : Prop where
  isLevel : level ≤ host.bottom
  order : start ≤ last
  within : last < hb.bitsAt level
  below : ∀ level', level < level' → level' ≤ host.bottom → Shows hb members' level'
  above : ∀ level' ≤ level, Shows hb members level'
  inRange : ∀ index, start ≤ index → index ≤ last →
    (index ∈ coarsen host.bitsPerLong (host.bottom - level) members' ↔ value = true)
  outside : ∀ index, ¬ (start ≤ index ∧ index ≤ last) →
    (index ∈ coarsen host.bitsPerLong (host.bottom - level) members ↔
      index ∈ coarsen host.bitsPerLong (host.bottom - level) members')

/-- After the change this level shows the new members. -/
theorem Climbs.level_shows (climbs : Climbs hb members members' level start last value)
    (sized : Sized hb)
    (range : RangeSet hb hb' level start (last + 1) value) : Shows hb' members' level := by
  intro index inside
  rw [range.sizes] at inside
  rw [range.bits]
  by_cases inRange : start ≤ index ∧ index ≤ last
  · rw [if_pos (by omega), climbs.inRange index inRange.1 inRange.2, or_iff_left]
    -- The range does not reach the sentinel.
    rintro ⟨rfl, same⟩
    have := climbs.within
    have := sized.top_lt
    omega
  · rw [if_neg (by omega), climbs.above level le_rfl index inside, climbs.outside index inRange]

theorem RangeSet.shows {level' shown} (range : RangeSet hb hb' level start stop value)
    (other : level' ≠ level) : Shows hb' shown level' ↔ Shows hb shown level' := by
  rw [Shows, Shows, range.sizes]
  have same : ∀ index, hb'.bit level' index = hb.bit level' index := fun index => by
    rw [HBitmap.bit, HBitmap.bit, range.others level' other]
  simp only [same]

theorem RangeSet.sized (range : RangeSet hb hb' level start stop value)
    (sized : Sized hb) : Sized hb' where
  bounded := by
    rw [range.size]
    exact sized.bounded
  words := by
    intro level' isLevel
    rw [range.sizes, sized.words level' isLevel, HBitmap.bitsAt, HBitmap.bitsAt, range.size]

theorem Climbs.outside_words (climbs : Climbs hb members members' (level + 1) start last value)
    {pos} (out : ¬ (start / host.bitsPerLong ≤ pos ∧ pos ≤ last / host.bitsPerLong)) :
    pos ∈ coarsen host.bitsPerLong (host.bottom - level) members ↔
      pos ∈ coarsen host.bitsPerLong (host.bottom - level) members' := by
  have isLevel := climbs.isLevel
  have height : host.bottom - level = host.bottom - (level + 1) + 1 := by omega
  rw [height, mem_coarsen_succ, mem_coarsen_succ]
  refine exists_congr fun index => and_congr_left fun inWord =>
    climbs.outside index fun ⟨lower, upper⟩ => out ?_
  rw [← inWord]
  exact ⟨Nat.div_le_div_right lower, Nat.div_le_div_right upper⟩

section

variable (climbs : Climbs hb members members' (level + 1) start last value) (sized : Sized hb)
  (range : RangeSet hb hb' (level + 1) start (last + 1) value)

include climbs sized range

theorem Climbs.kept_word {pos} (upper : pos ≤ last / host.bitsPerLong)
    (kept : hb.levels (level + 1) pos = 0#(host.bitsPerLong) ↔
      hb'.levels (level + 1) pos = 0#(host.bitsPerLong)) :
    pos ∈ coarsen host.bitsPerLong (host.bottom - level) members ↔
      pos ∈ coarsen host.bitsPerLong (host.bottom - level) members' := by
  have inside := lt_of_le_of_lt upper (sized.div_lt climbs.isLevel climbs.within)
  rw [← (climbs.above _ le_rfl).word_ne_zero_iff climbs.isLevel inside,
    ← (climbs.level_shows sized range).word_ne_zero_iff climbs.isLevel (range.sizes ▸ inside)]
  exact not_congr kept

/-- If no word changed between zero and nonzero, the levels above stand. -/
theorem Climbs.settled (kept : ∀ pos, start / host.bitsPerLong ≤ pos →
    pos ≤ last / host.bitsPerLong → (hb.levels (level + 1) pos = 0#(host.bitsPerLong) ↔
        hb'.levels (level + 1) pos = 0#(host.bitsPerLong))) :
    ∀ level' ≤ host.bottom, Shows hb' members' level' := by
  have same : coarsen host.bitsPerLong (host.bottom - level) members =
      coarsen host.bitsPerLong (host.bottom - level) members' := by
    ext pos
    by_cases inRange : start / host.bitsPerLong ≤ pos ∧ pos ≤ last / host.bitsPerLong
    · exact climbs.kept_word sized range inRange.2 (kept pos inRange.1 inRange.2)
    · exact climbs.outside_words inRange
  intro level' isLevel
  rcases Nat.lt_trichotomy level' (level + 1) with above | rfl | below
  · -- Levels above show the old set, which looks like the new one from there.
    rw [range.shows (Nat.ne_of_lt above)]
    have shown := climbs.above level' (le_of_lt above)
    rw [Shows, coarsen_congr (by omega) same] at shown
    exact shown
  · exact climbs.level_shows sized range
  · rw [range.shows (ne_of_gt below)]
    exact climbs.below level' below isLevel

/-- An update goes on above a level with the words that became zero or nonzero. -/
theorem Climbs.next {pos lastpos}
    (inside : start / host.bitsPerLong ≤ pos ∧ pos ≤ lastpos ∧ lastpos ≤ last / host.bitsPerLong)
    (became : ∀ word, pos ≤ word → word ≤ lastpos →
      (hb'.levels (level + 1) word ≠ 0#(host.bitsPerLong) ↔ value))
    (kept : ∀ word, start / host.bitsPerLong ≤ word → word ≤ last / host.bitsPerLong →
      ¬ (pos ≤ word ∧ word ≤ lastpos) →
      (hb.levels (level + 1) word = 0#(host.bitsPerLong) ↔
        hb'.levels (level + 1) word = 0#(host.bitsPerLong))) :
    Climbs hb' members members' level pos lastpos value := by
  have isLevel := climbs.isLevel
  have lastWord := sized.div_lt climbs.isLevel climbs.within
  have sized' := range.sized sized
  refine ⟨by omega, inside.2.1, ?_, fun level' below isLevel' => ?_, fun level' above => ?_,
    fun word lower upper => ?_, fun word out => ?_⟩
  · rw [sized'.bitsAt_eq climbs.isLevel, range.sizes]
    omega
  · rcases eq_or_lt_of_le (succ_le_of_lt below) with rfl | below
    · exact climbs.level_shows sized range
    · rw [range.shows (ne_of_gt below)]
      exact climbs.below level' below isLevel'
  · rw [range.shows (by omega)]
    exact climbs.above level' (by omega)
  · rw [← became word lower upper]
    refine ((climbs.level_shows sized range).word_ne_zero_iff isLevel ?_).symm
    rw [range.sizes]
    omega
  · by_cases inRange : start / host.bitsPerLong ≤ word ∧ word ≤ last / host.bitsPerLong
    · exact climbs.kept_word sized range inRange.2 (kept word inRange.1 inRange.2 out)
    · exact climbs.outside_words inRange

end

theorem Climbs.finish (climbs : Climbs hb members members' 0 start last value) (sized : Sized hb)
    (range : RangeSet hb hb' 0 start (last + 1) value) : ∀ level' ≤ host.bottom,
    Shows hb' members' level' := by
  intro level' isLevel
  rcases Nat.eq_zero_or_pos level' with rfl | below
  · exact climbs.level_shows sized range
  · rw [range.shows (by omega)]
    exact climbs.below level' below isLevel

/-- The recursion brings every level to the new members. -/
theorem hbSetBetween_shows (climbs : Climbs hb members members' level start last true)
    (sized : Sized hb) : ∃ changed hb', hbSetBetween level start last hb = some (changed, hb') ∧
      hb' = { hb with levels := hb'.levels } ∧ ∀ level' ≤ host.bottom,
          Shows hb' members' level' := by
  induction level generalizing hb start last with
  | zero =>
    obtain ⟨changed, hb', res, range, _⟩ :=
      setLevel_spec climbs.order (sized.div_lt climbs.isLevel climbs.within)
    exact ⟨changed, hb', res, range.frame, climbs.finish sized range⟩
  | succ level ih =>
    obtain ⟨changed, hb', res, range, kept⟩ :=
      setLevel_spec climbs.order (sized.div_lt climbs.isLevel climbs.within)
    have nonzero : ∀ word, start / host.bitsPerLong ≤ word → word ≤ last / host.bitsPerLong →
        hb'.levels (level + 1) word ≠ 0#(host.bitsPerLong) := fun word => range.ne_zero climbs.order
    rw [hbSetBetween, res]
    cases changed with
    | false =>
      refine ⟨false, hb', rfl, range.frame, climbs.settled sized range fun pos lower upper => ?_⟩
      exact iff_of_false (kept rfl pos lower upper) (nonzero pos lower upper)
    | true =>
      have next := climbs.next sized range ⟨le_rfl, Nat.div_le_div_right climbs.order, le_rfl⟩
        (fun word lower upper => iff_of_true (nonzero word lower upper) rfl)
        (fun word lower upper out => absurd ⟨lower, upper⟩ out)
      obtain ⟨changed, hb'', result', frame, shown⟩ := ih next (range.sized sized)
      refine ⟨true, hb'', ?_, by rw [frame, range.frame], shown⟩
      simp only [Option.bind_eq_bind, Option.bind_some, if_true, host.shiftRight_eq, result']
      rfl

/-- The recursion brings every level to the members left. -/
theorem hbResetBetween_shows (climbs : Climbs hb members members' level start last false)
    (sized : Sized hb) : ∃ changed hb', hbResetBetween level start last hb = some (changed, hb') ∧
      hb' = { hb with levels := hb'.levels } ∧ ∀ level' ≤ host.bottom,
          Shows hb' members' level' := by
  induction level generalizing hb start last with
  | zero =>
    obtain ⟨changed, pos, lastpos, hb', res, range, _⟩ :=
      resetLevel_spec climbs.order (sized.div_lt climbs.isLevel climbs.within)
        (sized.div_lt_pow climbs.within)
    refine ⟨changed, hb', ?_, range.frame, climbs.finish sized range⟩
    rw [hbResetBetween, res]
    rfl
  | succ level ih =>
    obtain ⟨changed, pos, lastpos, hb', res, range, blanks⟩ :=
      resetLevel_spec climbs.order (sized.div_lt climbs.isLevel climbs.within)
        (sized.div_lt_pow climbs.within)
    rw [hbResetBetween, res]
    cases changed with
    | false =>
      refine ⟨false, hb', rfl, range.frame, climbs.settled sized range fun word lower upper => ?_⟩
      exact ⟨range.zero_of_zero, blanks.kept word lower upper (fun isTrue => nomatch isTrue)⟩
    | true =>
      -- The words that became zero are what the level above clears.
      have next := climbs.next sized range (blanks.inside rfl)
        (fun word lower upper => iff_of_false (not_not_intro (blanks.zero rfl word lower upper))
          (nomatch ·)) (fun word lower upper out => ⟨range.zero_of_zero,
          blanks.kept word lower upper fun _ => out⟩)
      obtain ⟨changed, hb'', result', frame, shown⟩ := ih next (range.sized sized)
      refine ⟨true, hb'', ?_, by rw [frame, range.frame], shown⟩
      simp only [Option.bind_eq_bind, Option.bind_some, if_true, result']
      rfl

end Qemu.Util
