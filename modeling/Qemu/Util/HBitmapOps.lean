import Mathlib.Order.Interval.Finset.Nat
import Qemu.Util.HBitmapIter

/-! The operations on a bitmap, as operations on the set of groups it represents. -/

namespace Qemu.Util

open WordBits Pyramid Option BitVec Nat Finset

variable {host : HostLong}

def countIn (members : Finset Nat) (start stop : Nat) : Nat :=
  (members.filter fun group => start ≤ group ∧ group < stop).card

variable {members : Finset Nat} {start middle stop : Nat}

theorem countIn_add (lower : start ≤ middle) (upper : middle ≤ stop) :
    countIn members start middle + countIn members middle stop = countIn members start stop := by
  have disjoint : Disjoint (members.filter fun group => start ≤ group ∧ group < middle)
      (members.filter fun group => middle ≤ group ∧ group < stop) := by
    rw [disjoint_filter]
    omega
  rw [countIn, countIn, countIn, ← card_union_of_disjoint disjoint, ← filter_or]
  congr 1
  refine filter_congr fun group _ => ?_
  omega

theorem countIn_eq_zero (none : ∀ group ∈ members, ¬ (start ≤ group ∧ group < stop)) :
    countIn members start stop = 0 := by
  rw [countIn, Finset.card_eq_zero, filter_eq_empty_iff]
  exact fun group mem => none group mem

/-- The low bits of a word count the members that they stand for. -/
theorem card_bits {word : host.Word} {pos low : Nat} (within : low ≤ host.bitsPerLong)
    (bits : ∀ bit < host.bitsPerLong, (word.getLsbD bit = true ↔
      pos * host.bitsPerLong + bit ∈ members ∧ start ≤ pos * host.bitsPerLong + bit))
    (earliest : ∀ group ∈ members, start ≤ group → pos * host.bitsPerLong ≤ group) :
    ((range low).filter fun bit => word.getLsbD bit).card =
      countIn members start (pos * host.bitsPerLong + low) := by
  have injective : Function.Injective fun bit => pos * host.bitsPerLong + bit :=
    fun _ _ => add_left_cancel
  rw [countIn, ← card_image_of_injective _ injective]
  congr 1
  ext group
  simp only [mem_image, Finset.mem_filter, mem_range]
  constructor
  · rintro ⟨bit, ⟨below, isSet⟩, rfl⟩
    obtain ⟨mem, reached⟩ := (bits bit (by omega)).mp isSet
    exact ⟨mem, reached, by omega⟩
  · rintro ⟨mem, reached, below⟩
    have := earliest group mem reached
    have back : pos * host.bitsPerLong + (group - pos * host.bitsPerLong) = group := by omega
    refine ⟨group - pos * host.bitsPerLong, ⟨by omega, ?_⟩, back⟩
    rw [bits _ (by omega), back]
    exact ⟨mem, reached⟩

variable {hb : HBitmap host} {hbi : HBitmapIter host} {frontier : Nat}

/-- A word of an iteration: all members from the frontier up to the end of the word. -/
structure WordOf (members : Finset Nat) (frontier pos : Nat) (word : host.Word) : Prop where
  bits : ∀ bit < host.bitsPerLong, (word.getLsbD bit = true ↔
    pos * host.bitsPerLong + bit ∈ members ∧ frontier ≤ pos * host.bitsPerLong + bit)
  earliest : ∀ group ∈ members, frontier ≤ group → pos * host.bitsPerLong ≤ group

/-- At a word's end the iterator fits the word after it. -/
theorem IterFits.next_word {pos cur} (inside : pos < hb.sizes host.bottom) {upperFrontier}
    (upper : Upper pos cur members upperFrontier)
    (reached : upperFrontier ≤ (pos + 1) * host.bitsPerLong) :
    IterFits hb ⟨hb.granularity, pos, setAt cur host.bottom 0#(host.bitsPerLong)⟩ members
        ((pos + 1) * host.bitsPerLong) where
  granularity := rfl
  inside := inside
  upper := upper.mono (Finset.Subset.refl _) reached fun level isLevel =>
    if_neg (Nat.ne_of_lt isLevel)
  start := mul_le_mul_right _ (le_succ _)
  stop := le_rfl
  later := by
    intro bit cached
    have cleared : setAt cur host.bottom 0#(host.bitsPerLong) host.bottom = 0#(host.bitsPerLong) :=
      if_pos rfl
    simp only [cleared, getLsbD_zero] at cached
    contradiction
  keeps := by
    intro group _ beyond inWord
    have := host.bounds_of_div inWord
    change _ ∧ group < (pos + 1) * host.bitsPerLong at this
    omega

/-- The next word of a bitmap that does not change. -/
theorem hbitmapIterNextWord_spec (rep : Represents hb members)
    (fits : IterFits hb hbi members frontier)
    (live : ∀ bit, (hbi.cur host.bottom).getLsbD bit →
      (hb.levels host.bottom hbi.pos).getLsbD bit) :
    hbitmapIterNextWord hb hbi = some (2 ^ host.bitsPerLong - 1, 0#(host.bitsPerLong), hbi) ∧
        (∀ group ∈ members, ¬ frontier ≤ group) ∨
      ∃ pos word cur, hbitmapIterNextWord hb hbi =
          some (pos, word, ⟨hb.granularity, pos, setAt cur host.bottom 0#(host.bitsPerLong)⟩) ∧
        frontier < (pos + 1) * host.bitsPerLong ∧ WordOf members frontier pos word ∧
        IterFits hb ⟨hb.granularity, pos, setAt cur host.bottom 0#(host.bitsPerLong)⟩ members
          ((pos + 1) * host.bitsPerLong) := by
  rw [hbitmapIterNextWord]
  by_cases spent : hbi.cur host.bottom = 0#(host.bitsPerLong)
  · rw [if_pos spent]
    have passed : ∀ group ∈ members, frontier ≤ group → group / host.bitsPerLong ≠ hbi.pos := by
      intro group mem reached inWord
      have cached := fits.keeps group mem reached inWord
      rw [spent, getLsbD_zero] at cached
      contradiction
    rcases hbitmapIterSkipWords_spec rep (Finset.Subset.refl _) fits.upper
      fits.inside fits.start fits.stop
      passed with ⟨res, done⟩ | ⟨pos, cur, res, nonzero, later, inside, upper, onwards⟩
    · left
      simp only [res, bind_eq_bind, bind_some, if_true]
      exact ⟨rfl, done⟩
    right
    have reached : frontier ≤ pos * host.bitsPerLong :=
      le_trans fits.stop (mul_le_mul_right _ later)
    have step : pos * host.bitsPerLong < (pos + 1) * host.bitsPerLong :=
      Nat.mul_lt_mul_of_pos_right (lt_succ_self _) host.bitsPerLong_pos
    refine ⟨pos, hb.levels host.bottom pos, cur, ?_, by omega, ⟨fun bit within => ?_, onwards⟩,
      IterFits.next_word inside upper (le_of_lt step)⟩
    · simp only [res, bind_eq_bind, bind_some, if_neg nonzero, fits.granularity]
      rfl
    · rw [rep.bottom_iff inside within]
      exact ⟨fun mem => ⟨mem, by omega⟩, And.left⟩
  right
  rw [if_neg spent]
  -- The word at hand has a bit from the frontier on.
  obtain ⟨some_, within, isSet⟩ := (ne_zero_iff _).mp spent
  have reached := fits.later some_ isSet
  refine ⟨hbi.pos, hbi.cur host.bottom, hbi.cur, ?_, ?_,
    ⟨fun bit within => ⟨fun cached => ?_, fun here => ?_⟩, ?_⟩,
    IterFits.next_word fits.inside fits.upper fits.stop⟩
  · simp only [bind_eq_bind, bind_some, if_neg spent, fits.granularity]
    rfl
  · rw [Nat.add_mul, Nat.one_mul]
    omega
  · exact ⟨(rep.bottom_iff fits.inside within).mp (live bit cached), fits.later bit cached⟩
  · have := fits.keeps _ here.1 here.2 (host.div_index _ within)
    rwa [host.mod_index _ within] at this
  · exact fun group _ reached => le_trans fits.start reached

/-- What the loop over words has counted when it stops. -/
structure Counted (members : Finset Nat) (frontier stop count count' pos : Nat)
    (word : host.Word) : Prop where
  counted : ∃ frontier', frontier ≤ frontier' ∧
    (frontier' = frontier ∨ frontier' ≤ stop * host.bitsPerLong) ∧
    count' = count + countIn members frontier frontier' ∧
    (pos = 2 ^ host.bitsPerLong - 1 ∧ (∀ group ∈ members, ¬ frontier' ≤ group) ∨
      stop ≤ pos ∧ WordOf members frontier' pos word)

/-- The loop of the count ends, with all words before the stop counted. -/
theorem countWords_spec (rep : Represents hb members) {stop fuel count : Nat}
    (small : stop < 2 ^ host.bitsPerLong - 1) (fits : IterFits hb hbi members frontier)
    (live : ∀ bit, (hbi.cur host.bottom).getLsbD bit → (hb.levels host.bottom hbi.pos).getLsbD bit)
    (enough : hb.sizes host.bottom < fuel + frontier / host.bitsPerLong) :
    ∃ count' pos word, countWords hb stop fuel count hbi = some (count', pos, word) ∧
      Counted members frontier stop count count' pos word := by
  induction fuel generalizing count hbi frontier with
  | zero =>
    -- The frontier never runs past the last word.
    have bound := le_trans fits.stop (mul_le_mul_right _ fits.inside)
    rw [Nat.zero_add, lt_iff_add_one_le, Nat.le_div_iff_mul_le host.bitsPerLong_pos,
      Nat.add_mul] at enough
    have := host.bitsPerLong_pos
    omega
  | succ fuel ih =>
    rw [countWords]
    rcases hbitmapIterNextWord_spec rep fits live with
      ⟨res, done⟩ | ⟨pos, word, cur, res, reached, wordOf, fits'⟩
    · refine ⟨count, _, 0#(host.bitsPerLong), ?_,
        ⟨frontier, le_rfl, .inl rfl, ?_, .inl ⟨rfl, done⟩⟩⟩
      · simp only [res, bind_eq_bind, bind_some]
        rw [if_pos (by omega)]
        rfl
      · rw [countIn_eq_zero (by omega), add_zero]
    simp only [res, bind_eq_bind, bind_some]
    by_cases stops : pos ≥ stop
    · rw [if_pos stops]
      refine ⟨count, pos, word, rfl, ⟨frontier, le_rfl, .inl rfl, ?_, .inr ⟨stops, wordOf⟩⟩⟩
      rw [countIn_eq_zero (by omega), add_zero]
    rw [if_neg stops]
    have counted : word.cpop.toNat = countIn members frontier ((pos + 1) * host.bitsPerLong) := by
      rw [toNat_cpop_eq_card, positions, card_bits le_rfl wordOf.bits wordOf.earliest,
        Nat.add_mul, Nat.one_mul]
    have further : hb.sizes host.bottom < fuel +
        (pos + 1) * host.bitsPerLong / host.bitsPerLong := by
      have := (div_lt_iff_lt_mul host.bitsPerLong_pos).mpr reached
      rw [Nat.mul_div_cancel _ host.bitsPerLong_pos]
      omega
    obtain ⟨count', pos', word', loop, ⟨frontier', onwards, bound, total, last⟩⟩ :=
      @ih _ _ (count + word.cpop.toNat) fits' (by
        intro bit cached
        have cleared : setAt cur host.bottom 0#(host.bitsPerLong) host.bottom =
          0#(host.bitsPerLong) := if_pos rfl
        simp only [cleared, getLsbD_zero] at cached
        contradiction) further
    refine ⟨count', pos', word', loop, ⟨frontier', by omega, .inr ?_, ?_, last⟩⟩
    · have : (pos + 1) * host.bitsPerLong ≤ stop * host.bitsPerLong := mul_le_mul_right _ (by omega)
      omega
    · rw [total, counted, add_assoc, countIn_add (le_of_lt reached) onwards]

theorem Sized.small (sized : Sized hb) : hb.size < 2 ^ 64 ∧
    hb.size / host.bitsPerLong < 2 ^ host.bitsPerLong - 1 := by
  have bounded := sized.bounded
  refine ⟨lt_of_le_of_lt bounded ?_, Nat.div_lt_of_lt_mul (lt_of_le_of_lt bounded ?_)⟩
  · cases host <;> decide
  · cases host <;> decide

/-- The count of a range of groups. -/
theorem hbCountBetween_spec (rep : Represents hb members) {last : Nat} (order : start ≤ last)
    (within : last < hb.size) (noOverflow : start * 2 ^ hb.granularity < 2 ^ 64) :
    hbCountBetween hb start last = some (countIn members start (last + 1)) := by
  obtain ⟨small, smallWord⟩ := rep.small
  have lastWord : (last + 1) / host.bitsPerLong < 2 ^ host.bitsPerLong - 1 :=
    lt_of_le_of_lt (Nat.div_le_div_right (by omega)) smallWord
  have stop_eq : (last + 1) % 2 ^ 64 = last + 1 := mod_eq_of_lt (by omega)
  have item : (start <<< hb.granularity % 2 ^ 64) >>> hb.granularity = start := by
    rw [Nat.shiftLeft_eq, mod_eq_of_lt noOverflow, shiftRight_eq_div_pow,
      Nat.mul_div_cancel _ (Nat.two_pow_pos _)]
  obtain ⟨hbi, init, fits, live⟩ := @hbitmapIterInit_spec host hb members rep
    (start <<< hb.granularity % 2 ^ 64) (by rw [item]; omega)
  rw [item] at fits
  obtain ⟨count, pos, word, loop, ⟨frontier, onwards, bound, counted, ending⟩⟩ :=
    @countWords_spec host members hb hbi start rep ((last + 1) / host.bitsPerLong)
      (hb.sizes host.bottom + 1) 0 lastWord fits live (Nat.lt_add_right _ (lt_succ_self _))
  have split := host.split_index (last + 1)
  have position := mod_lt (last + 1) host.bitsPerLong_pos
  have before : frontier ≤ last + 1 := by omega
  rw [Nat.zero_add] at counted
  rw [hbCountBetween]
  simp only [stop_eq, init, bind_eq_bind, bind_some, host.shiftRight_eq, loop, host.and_eq]
  by_cases atStop : pos = (last + 1) / host.bitsPerLong
  · -- The last word counts up to the end of the range.
    rw [if_pos atStop]
    rcases ending with ⟨isEnd, _⟩ | ⟨_, wordOf⟩
    · omega
    have low : (word &&& lowMask host.bitsPerLong ((last + 1) % host.bitsPerLong)).cpop.toNat =
        countIn members frontier (last + 1) := by
      have below := card_bits (le_of_lt position) wordOf.bits wordOf.earliest
      rw [atStop, split] at below
      rw [toNat_cpop_eq_card, ← below]
      congr 1
      ext bit
      simp only [positions, Finset.mem_filter, mem_range, getLsbD_and, getLsbD_lowMask position,
        Bool.and_eq_true, decide_eq_true_eq]
      exact ⟨fun both => ⟨both.2.2, both.2.1⟩,
        fun both => ⟨lt_trans both.1 position, both.2, both.1⟩⟩
    rw [low, counted, countIn_add onwards before]
    rfl
  -- Nothing is left before the end of the range.
  rw [if_neg atStop, counted]
  have none : countIn members frontier (last + 1) = 0 := by
    refine countIn_eq_zero ?_
    rintro group mem ⟨reached, below⟩
    rcases ending with ⟨_, done⟩ | ⟨stops, wordOf⟩
    · exact done group mem reached
    have := wordOf.earliest group mem reached
    have : ((last + 1) / host.bitsPerLong + 1) * host.bitsPerLong ≤ pos * host.bitsPerLong :=
      mul_le_mul_right _ (by omega)
    rw [Nat.add_mul, Nat.one_mul] at this
    omega
  rw [← countIn_add onwards before, none, add_zero]
  rfl

theorem Represents.count_all (rep : Represents hb members) (some_ : hb.size ≠ 0) :
    hbCountBetween hb 0 ((hb.size + 2 ^ 64 - 1) % 2 ^ 64) = some members.card := by
  have small := rep.small.1
  have last : (hb.size + 2 ^ 64 - 1) % 2 ^ 64 = hb.size - 1 := by omega
  rw [last, hbCountBetween_spec rep (zero_le _) (by omega) (by omega), countIn, filter_true_of_mem]
  intro group mem
  have := rep.within group mem
  omega

variable {count : Nat}

/-- Nothing but the count and the words of a bitmap changes. -/
def SameShape (hb hb' : HBitmap host) : Prop :=
  hb' = { hb with count := hb'.count, levels := hb'.levels }

theorem card_le_of_lt {size} (within : ∀ group ∈ members, group < size) : members.card ≤ size := by
  have subset : members ⊆ range size := fun group mem => mem_range.mpr (within group mem)
  simpa using card_le_card subset

variable {first last : Nat}

theorem inter_Icc : members ∩ Finset.Icc first last = members.filter fun group =>
    first ≤ group ∧ group < last + 1 := by
  ext group
  simp only [Finset.mem_inter, Finset.mem_Icc, Finset.mem_filter, Nat.lt_succ_iff]

theorem card_union_Icc (order : first ≤ last) :
    (members ∪ Finset.Icc first last).card + countIn members first (last + 1) =
      members.card + (last - first + 1) := by
  have := card_union_add_card_inter members (Finset.Icc first last)
  rw [inter_Icc, card_Icc] at this
  rw [countIn, this]
  omega

theorem card_sdiff_Icc : (members \ Finset.Icc first last).card + countIn members first
    (last + 1) = members.card := by
  rw [countIn, ← inter_Icc]
  exact card_sdiff_add_card_inter _ _

/-- A change of a range starts its climb at the bottom. -/
theorem Represents.climbs (rep : Represents hb members) {members' : Finset Nat}
    {first last : Nat} {value : Bool} (order : first ≤ last) (within : last < hb.size)
    (inRange : ∀ group, first ≤ group → group ≤ last → (group ∈ members' ↔ value))
    (outside : ∀ group, ¬ (first ≤ group ∧ group ≤ last) → (group ∈ members ↔ group ∈ members')) :
    Climbs hb members members' host.bottom first last value where
  isLevel := le_rfl
  order := order
  within := hb.bitsAt_bottom.symm ▸ within
  below := fun level' below isLevel => absurd below (Nat.not_lt_of_le isLevel)
  above := rep.levels
  inRange := by
    rw [Nat.sub_self, coarsen_zero]
    exact inRange
  outside := by
    rw [Nat.sub_self, coarsen_zero, coarsen_zero]
    exact outside

theorem Represents.withCount (rep : Represents hb members) (count : Nat) :
    Represents { hb with count := count } members :=
  ⟨⟨rep.bounded, rep.words⟩, rep.within, rep.levels⟩

theorem Represents.ofLevels {hb' : HBitmap host} {members' : Finset Nat}
    (rep : Represents hb members)
    (frame : hb' = { hb with levels := hb'.levels }) (within : ∀ group ∈ members', group < hb.size)
    (levels : ∀ level ≤ host.bottom, Shows hb' members' level) : Represents hb' members' := by
  refine ⟨⟨?_, fun level isLevel => ?_⟩, ?_, levels⟩
  · rw [frame]
    exact rep.bounded
  · rw [frame]
    exact rep.words level isLevel
  · rw [frame]
    exact within

theorem count_after_set {first last size old new already}
    (order : first ≤ last) (within : last < size)
    (small : size < 2 ^ 64) (new_le : new ≤ size) (old_le : old ≤ new)
    (sum : new + already = old + (last - first + 1)) :
    (old + ((last + 2 ^ 64 - first + 1) % 2 ^ 64 + 2 ^ 64 - already)) % 2 ^ 64 = new := by
  have n_eq : (last + 2 ^ 64 - first + 1) % 2 ^ 64 = last - first + 1 := by omega
  rw [n_eq]
  omega

theorem shiftRight_mul_lt (gran : Nat) (start_lt : start < 2 ^ 64) :
    start >>> gran * 2 ^ gran < 2 ^ 64 := by
  rw [shiftRight_eq_div_pow]
  exact lt_of_le_of_lt (div_mul_le_self _ _) start_lt

/-- Setting a range of items adds the groups that it meets. -/
theorem hbitmapSet_spec (rep : Represents hb members) (counted : hb.count = members.card)
    (start_lt : start < 2 ^ 64) (some_ : count ≠ 0)
    (order : start >>> hb.granularity ≤ lastItem start count >>> hb.granularity)
    (within : lastItem start count >>> hb.granularity < hb.size) :
    ∃ hb', hbitmapSet hb start count = some hb' ∧ SameShape hb hb' ∧
      Represents hb' (members ∪ Finset.Icc (start >>> hb.granularity)
        (lastItem start count >>> hb.granularity)) ∧ hb'.count =
        (members ∪ Finset.Icc (start >>> hb.granularity)
            (lastItem start count >>> hb.granularity)).card := by
  set first := start >>> hb.granularity with first_eq
  set last := lastItem start count >>> hb.granularity with last_eq
  obtain ⟨small, _⟩ := rep.small
  have already := hbCountBetween_spec rep order within (shiftRight_mul_lt _ start_lt)
  have union := @card_union_Icc members first last order
  have inside : ∀ group ∈ members ∪ Finset.Icc first last, group < hb.size := by
    intro group mem
    rcases mem_union.mp mem with old | new
    · exact rep.within group old
    · have := (mem_Icc.mp new).2
      omega
  have fewer : members.card ≤ (members ∪ Finset.Icc first last).card :=
    card_le_card subset_union_left
  have total := counted ▸ count_after_set order within small (card_le_of_lt inside) fewer union
  have counted' := rep.withCount (members ∪ Finset.Icc first last).card
  obtain ⟨changed, hb', res, frame, levels⟩ := hbSetBetween_shows
    (@Represents.climbs host _ _ counted' (members ∪ Finset.Icc first last) _ _ true order within
      (fun group lower upper => by simp [lower, upper]) (fun group outside => by simp [outside]))
        counted'.toSized
  refine ⟨hb', ?_, ?_, counted'.ofLevels frame inside levels, by rw [frame]⟩
  · rw [hbitmapSet, if_neg some_, ← first_eq, ← last_eq]
    simp only [within, not_true_eq_false, if_false, already, bind_eq_bind, bind_some, total, res]
    rfl
  · rw [SameShape, frame]

/-- Clearing a range of items removes the groups that it meets. -/
theorem hbitmapReset_spec (rep : Represents hb members) (counted : hb.count = members.card)
    (start_lt : start < 2 ^ 64) (some_ : count ≠ 0) (aligned : start % 2 ^ hb.granularity = 0)
    (whole : count % 2 ^ hb.granularity = 0 ∨ (start + count) % 2 ^ 64 = hb.origSize)
    (order : start >>> hb.granularity ≤ lastItem start count >>> hb.granularity)
    (within : lastItem start count >>> hb.granularity < hb.size) :
    ∃ hb', hbitmapReset hb start count = some hb' ∧ SameShape hb hb' ∧
      Represents hb' (members \ Finset.Icc (start >>> hb.granularity)
        (lastItem start count >>> hb.granularity)) ∧ hb'.count =
        (members \ Finset.Icc (start >>> hb.granularity)
            (lastItem start count >>> hb.granularity)).card := by
  set first := start >>> hb.granularity with first_eq
  set last := lastItem start count >>> hb.granularity with last_eq
  obtain ⟨small, _⟩ := rep.small
  have already := hbCountBetween_spec rep order within (shiftRight_mul_lt _ start_lt)
  have difference := @card_sdiff_Icc members first last
  have bounded := card_le_of_lt rep.within
  have total : (hb.count + 2 ^ 64 - countIn members first (last + 1)) % 2 ^ 64 =
      (members \ Finset.Icc first last).card := by omega
  have counted' := rep.withCount (members \ Finset.Icc first last).card
  obtain ⟨changed, hb', res, frame, levels⟩ := hbResetBetween_shows
    (@Represents.climbs host _ _ counted' (members \ Finset.Icc first last) _ _ false order within
      (fun group lower upper => by simp [lower, upper]) (fun group outside => by simp [outside]))
        counted'.toSized
  refine ⟨hb', ?_, ?_, counted'.ofLevels frame (fun group mem => ?_) levels, by rw [frame]⟩
  · rw [hbitmapReset, if_neg some_]
    simp only [aligned, whole, not_true_eq_false, if_false, ← first_eq, ← last_eq, within, already,
      bind_eq_bind, bind_some, total, res]
    rfl
  · rw [SameShape, frame]
  · exact rep.within group (mem_sdiff.mp mem).1

/-- An item is dirty when its group is a member. -/
theorem hbitmapGet_spec (rep : Represents hb members) {item}
    (within : item >>> hb.granularity < hb.size) :
    hbitmapGet hb item = some (decide (item >>> hb.granularity ∈ members)) := by
  set group := item >>> hb.granularity with group_eq
  have pos := mod_lt group host.bitsPerLong_pos
  have inside := rep.word_lt within
  have word : hb.word? host.bottom (group / host.bitsPerLong) =
      some (hb.levels host.bottom (group / host.bitsPerLong)) := if_pos inside
  have bit := rep.bit_bottom inside
  rw [HBitmap.bit] at bit
  rw [hbitmapGet, ← group_eq]
  simp only [within, not_true_eq_false, if_false, host.shiftRight_eq, host.and_eq,
    word, bind_eq_bind, bind_some]
  -- The word and the one bit have something in common exactly when the bit is set.
  congr 1
  rw [Bool.eq_iff_iff, decide_eq_true_eq, decide_eq_true_eq, ← bit, ne_zero_iff]
  constructor
  · rintro ⟨i, _, both⟩
    rw [getLsbD_and, getLsbD_one_shiftLeft pos, Bool.and_eq_true, decide_eq_true_eq] at both
    exact both.2 ▸ both.1
  · intro isSet
    refine ⟨group % host.bitsPerLong, pos, ?_⟩
    rw [getLsbD_and, getLsbD_one_shiftLeft pos, isSet]
    simp

end Qemu.Util
