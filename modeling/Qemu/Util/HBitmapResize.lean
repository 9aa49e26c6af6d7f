import Qemu.Util.HBitmapOps

/-! Allocating, clearing and resizing a hierarchical bitmap. -/

namespace Qemu.Util

open WordBits Pyramid Nat Finset Function

variable {host : HostLong} {hb : HBitmap host} {hb' : HBitmap host}
    {members : Finset Nat} {groups : Nat}

theorem Sized.top_words (sized : Sized hb) : hb.sizes 0 = 1 := by
  rw [sized.words 0 (zero_le _)]
  refine le_antisymm (blocks_le host.bitsPerLong_pos one_pos ?_) (le_max_right _ _)
  have := sized.top_lt
  omega

/-- Zero levels below the sentinel represent the empty set. -/
theorem Sized.represents_empty (sized : Sized hb)
    (zero : ∀ level ≤ host.bottom, 0 < level → ∀ pos < hb.sizes level,
      hb.levels level pos = 0#(host.bitsPerLong))
    (top : hb.levels 0 0 = host.sentinel) : Represents hb ∅ := by
  refine ⟨sized, fun _ mem => absurd mem (notMem_empty _), fun level isLevel index inside => ?_⟩
  have empty : coarsen host.bitsPerLong (host.bottom - level) ∅ = ∅ := image_empty _
  have positive := host.bitsPerLong_pos
  rw [empty, HBitmap.bit]
  rcases Nat.eq_zero_or_pos level with rfl | below
  · rw [sized.top_words, lt_one_iff] at inside
    have split := host.split_index index
    rw [inside] at split
    rw [inside, top, HostLong.sentinel, getLsbD_one_shiftLeft (by omega)]
    simp only [decide_eq_true_eq, notMem_empty, false_or, true_and]
    omega
  · rw [zero level isLevel below _ inside, BitVec.getLsbD_zero]
    simp only [Bool.false_eq_true, notMem_empty, false_or, false_iff]
    omega

/-- The loop over the levels of a new bitmap computes the number of words of each. -/
theorem allocLevels_spec {groups i size sizes} (levels : i ≤ host.bottom + 1)
    (size_eq : ∀ level, i = level + 1 →
      size = (blocks host.bitsPerLong)^[host.bottom - level] groups) :
    (∀ level < i, (allocLevels host i size sizes).2 level =
        blocks host.bitsPerLong ((blocks host.bitsPerLong)^[host.bottom - level] groups)) ∧
      (∀ level ≥ i, (allocLevels host i size sizes).2 level = sizes level) ∧
      (i ≠ 0 → (allocLevels host i size sizes).1 = (allocLevels host i size sizes).2 0) := by
  induction i generalizing size sizes with
  | zero => exact ⟨fun level below => absurd below (not_lt_zero _),
      fun _ _ => rfl, fun no => absurd rfl no⟩
  | succ i ih =>
    obtain rfl := size_eq i rfl
    rw [allocLevels, host.wordsFor_eq]
    -- A level has one bit for each word of the level below.
    obtain ⟨done, others, last⟩ :=
      @ih (blocks host.bitsPerLong ((blocks host.bitsPerLong)^[host.bottom - i] groups))
      (setAt sizes i (blocks host.bitsPerLong ((blocks host.bitsPerLong)^[host.bottom - i] groups)))
        (by omega) (fun level above => by
        subst above
        have height : host.bottom - level = host.bottom - (level + 1) + 1 := by omega
        rw [height, iterate_succ_apply'])
    refine ⟨fun level below => ?_, fun level above => ?_, fun _ => ?_⟩
    · rcases eq_or_lt_of_le (le_of_lt_succ below) with rfl | below
      · rw [others level le_rfl]
        exact if_pos rfl
      · exact done level below
    · rw [others level (by omega)]
      exact if_neg (by omega)
    · rcases Nat.eq_zero_or_pos i with rfl | below
      · rw [allocLevels]
        simp [setAt]
      · exact last (ne_of_gt below)

theorem groupsFor_eq {size granularity} (bounded : size ≤ 2 ^ 63 - 1)
    (granular : granularity < 64) :
    groupsFor size granularity = (size + 2 ^ granularity - 1) / 2 ^ granularity := by
  have power : 2 ^ granularity ≤ 2 ^ 63 := Nat.pow_le_pow_right (by decide) (by omega)
  rw [groupsFor, mod_eq_of_lt (by omega), shiftRight_eq_div_pow]

theorem groupsFor_mul_le {size gran} (bounded : size ≤ 2 ^ 63 - 1) (granular : gran < 64) :
    groupsFor size gran * 2 ^ gran ≤ 2 ^ 63 := by
  have pos := Nat.two_pow_pos gran
  have total : 2 ^ (63 - gran) * 2 ^ gran = 2 ^ 63 := by
    rw [← pow_add]
    congr 1
    omega
  rw [groupsFor_eq bounded granular, ← total]
  refine mul_le_mul_right _ ?_
  rw [div_le_iff_le_mul_add_pred pos, mul_comm, total]
  omega

/-- A bitmap represents a set of groups, and its other fields fit. -/
structure Holds (hb : HBitmap host) (members : Finset Nat) :
    Prop extends Represents hb members where
  counted : hb.count = members.card
  granular : hb.granularity < 64
  original : hb.origSize ≤ 2 ^ 63 - 1
  groups : hb.size = groupsFor hb.origSize hb.granularity

theorem Holds.room (holds : Holds hb members) : hb.size * 2 ^ hb.granularity ≤ 2 ^ 63 := by
  rw [holds.groups]
  exact groupsFor_mul_le holds.original holds.granular

/-- A size and a granularity that `hbitmap_alloc` takes. -/
def Accepted (host : HostLong) (size : Nat) (granularity : Int) : Prop :=
  size ≤ 2 ^ 63 - 1 ∧ (granularity ≥ 0 ∧ granularity < 64) ∧
    groupsFor size granularity.toNat ≤ 2 ^ host.logMaxSize

instance (size : Nat) (granularity : Int) : Decidable (Accepted host size granularity) := by
  unfold Accepted
  infer_instance

/-- A size and granularity that are accepted give an empty bitmap. -/
theorem hbitmapAlloc_spec {size granularity} (accepted : Accepted host size granularity) :
    ∃ hb, hbitmapAlloc host size granularity = some hb ∧
        hb.granularity = granularity.toNat ∧ Holds hb ∅ := by
  obtain ⟨bounded, granular, fits⟩ := accepted
  set groups := groupsFor size granularity.toNat with groups_eq
  obtain ⟨done, _, last⟩ := @allocLevels_spec host groups (host.bottom + 1)
    groups (fun _ => 0) le_rfl (fun level same => by
      obtain rfl : level = host.bottom := by omega
      rw [Nat.sub_self]
      rfl)
  set sizes := (allocLevels host (host.bottom + 1) groups fun _ => 0).2
  set new : HBitmap host :=
    { origSize := size, size := groups, count := 0, granularity := granularity.toNat,
      sizes := sizes, levels := fun level pos => if level = 0 ∧
        pos = 0 then host.sentinel else 0#(host.bitsPerLong) } with new_eq
  have sized : Sized new := ⟨fits, fun level isLevel => done level (lt_succ_of_le isLevel)⟩
  -- The assertion after the loop: one word is left at the top.
  have one : (allocLevels host (host.bottom + 1) groups fun _ => 0).1 = 1 :=
    (last (succ_ne_zero _)).trans sized.top_words
  refine ⟨new, ?_, rfl, Sized.represents_empty sized (fun level _ below pos _ => ?_) ?_, rfl, ?_,
    bounded, rfl⟩
  · rw [hbitmapAlloc, if_neg (not_not_intro bounded), if_neg (not_not_intro granular)]
    dsimp only
    rw [← groups_eq, if_neg (not_not_intro fits), if_neg (not_not_intro one)]
    rfl
  · exact if_neg fun both => absurd both.1 (ne_of_gt below)
  · simp only [new_eq, and_self, if_true]
  · change granularity.toNat < 64
    omega

theorem hbitmapAlloc_accepted {size granularity}
    (alloc : hbitmapAlloc host size granularity = some hb) : Accepted host size granularity := by
  rw [hbitmapAlloc] at alloc
  obtain ⟨bounded, alloc⟩ := Option.ite_none_left_eq_some.mp alloc
  obtain ⟨granular, alloc⟩ := Option.ite_none_left_eq_some.mp alloc
  obtain ⟨fits, alloc⟩ := Option.ite_none_left_eq_some.mp alloc
  exact ⟨not_not.mp bounded, not_not.mp granular, not_not.mp fits⟩

theorem hbitmapResetAll_holds (holds : Holds hb members) : Holds (hbitmapResetAll hb) ∅ := by
  refine ⟨?_, rfl, holds.granular, holds.original, holds.groups⟩
  refine Sized.represents_empty ⟨holds.bounded, holds.words⟩
    (fun level isLevel below pos inside => ?_) ?_
  · exact if_pos ⟨below, isLevel, inside⟩
  · simp [hbitmapResetAll]

theorem Holds.ofShape {members'} (holds : Holds hb members) (shape : SameShape hb hb')
    (rep : Represents hb' members') (counted : hb'.count = members'.card) : Holds hb' members' := by
  refine ⟨rep, counted, ?_, ?_, ?_⟩
  · rw [shape]
    exact holds.granular
  · rw [shape]
    exact holds.original
  · rw [shape]
    exact holds.groups

/-- Resizing the levels below a number: new sizes, and zero in new words. -/
structure Resized (hb hb' : HBitmap host) (groups i : Nat) : Prop where
  frame : hb' = { hb with sizes := hb'.sizes, levels := hb'.levels }
  sizes : ∀ level < i, hb'.sizes level =
    blocks host.bitsPerLong ((blocks host.bitsPerLong)^[host.bottom - level] groups)
  words : ∀ level < i, ∀ pos < hb'.sizes level,
    hb'.levels level pos = if pos < hb.sizes level then hb.levels level pos
      else 0#(host.bitsPerLong)
  others : ∀ level ≥ i, hb'.sizes level = hb.sizes level ∧ hb'.levels level = hb.levels level

/-- The loop resizes each level, up to one that keeps its number of words, as those above it do
then. -/
theorem truncateLevels_spec {old i size : Nat} {shrink : Bool} (levels : i ≤ host.bottom + 1)
    (direction : shrink → groups ≤ old)
    (sized : ∀ level < i, hb.sizes level = blocks host.bitsPerLong
      ((blocks host.bitsPerLong)^[host.bottom - level] old)) (size_eq : ∀ level, i = level + 1 →
      size = (blocks host.bitsPerLong)^[host.bottom - level] groups) :
    Resized hb (truncateLevels shrink i size hb) groups i := by
  induction i generalizing size hb with
  | zero =>
    exact ⟨rfl, fun level below => absurd below (not_lt_zero _), fun level below =>
      absurd below (not_lt_zero _), fun _ _ => ⟨rfl, rfl⟩⟩
  | succ i ih =>
    obtain rfl := size_eq i rfl
    rw [truncateLevels, host.wordsFor_eq]
    set words :=
      blocks host.bitsPerLong ((blocks host.bitsPerLong)^[host.bottom - i] groups) with words_eq
    by_cases same : hb.sizes i = words
    · rw [if_pos same]
      -- Everything above depends on this number of words alone.
      have above : ∀ level ≤ i, hb.sizes level =
          blocks host.bitsPerLong ((blocks host.bitsPerLong)^[host.bottom - level] groups) := by
        intro level isAbove
        have steps : host.bottom - level + 1 = (i - level) + (host.bottom - i + 1) := by omega
        have iterate := iterate_succ_apply' (blocks host.bitsPerLong)
        have here : (blocks host.bitsPerLong)^[host.bottom - i + 1] old =
            (blocks host.bitsPerLong)^[host.bottom - i + 1] groups := by
          rw [iterate, iterate, ← sized i (lt_succ_self _), same]
        rw [sized level (lt_succ_of_le isAbove), ← iterate, ← iterate, succ_eq_add_one, steps,
          iterate_add_apply _ (i - level) (host.bottom - i + 1),
          iterate_add_apply _ (i - level) (host.bottom - i + 1), here]
      refine ⟨rfl, fun level below => above level (le_of_lt_succ below),
        fun level below pos inside => ?_, fun _ _ => ⟨rfl, rfl⟩⟩
      rw [if_pos inside]
    rw [if_neg same]
    set resized : HBitmap host := { hb with
      sizes := setAt hb.sizes i words
      levels := fun level pos =>
        if level = i ∧ shrink = false ∧ hb.sizes i ≤ pos ∧ pos < words then 0#(host.bitsPerLong)
        else hb.levels level pos } with resized_eq
    have here : resized.sizes i = words := if_pos rfl
    have elsewhere : ∀ level ≠ i, resized.sizes level = hb.sizes level ∧
        resized.levels level = hb.levels level := by
      intro level other
      refine ⟨if_neg other, funext fun pos => if_neg fun all => other all.1⟩
    have rest := @ih resized words (by omega)
      (fun level below => by rw [(elsewhere level (by omega)).1]; exact sized level (by omega))
      (fun level above => by
        subst above
        have height : host.bottom - level = host.bottom - (level + 1) + 1 := by omega
        rw [height, iterate_succ_apply'])
    refine ⟨by rw [rest.frame], fun level below => ?_, fun level below pos inside =>
      ?_, fun level above => ?_⟩
    · rcases eq_or_lt_of_le (le_of_lt_succ below) with rfl | below
      · rw [(rest.others level le_rfl).1, here]
      · exact rest.sizes level below
    · rcases eq_or_lt_of_le (le_of_lt_succ below) with rfl | below
      · obtain ⟨sizes, levels⟩ := rest.others level le_rfl
        rw [sizes, here] at inside
        rw [levels]
        by_cases before : pos < hb.sizes level
        · rw [if_pos before]
          exact if_neg (by omega)
        -- Only a bitmap that grows has words beyond the old ones.
        have grows : shrink = false := by
          by_contra shrinks
          have order : words ≤ hb.sizes level := by
            rw [words_eq, sized level (lt_succ_self _)]
            exact blocks_mono (blocks_mono.iterate _ (direction (by simpa using shrinks)))
          omega
        rw [if_neg before]
        exact if_pos ⟨rfl, grows, by omega, inside⟩
      · rw [rest.words level below pos inside, (elsewhere level (Nat.ne_of_lt below)).1,
          (elsewhere level (Nat.ne_of_lt below)).2]
    · rw [(rest.others level (by omega)).1, (rest.others level (by omega)).2]
      exact elsewhere level (by omega)

/-- Resizing the levels loses no member below the new size. -/
theorem Represents.resized (rep : Represents hb members)
    (changed : Resized { hb with size := groups } hb' groups (host.bottom + 1))
    (fits : groups ≤ 2 ^ host.logMaxSize)
    (within : ∀ group ∈ members, group < groups) : Represents hb' members := by
  have size : hb'.size = groups := by rw [changed.frame]
  have sized : Sized hb' := by
    refine ⟨size ▸ fits, fun level isLevel => ?_⟩
    rw [changed.sizes level (lt_succ_of_le isLevel), HBitmap.bitsAt, size]
  refine ⟨sized, size ▸ within, fun level isLevel index inside => ?_⟩
  have word := changed.words level (lt_succ_of_le isLevel) _ inside
  rw [HBitmap.bit, word]
  by_cases before : index / host.bitsPerLong < hb.sizes level
  · rw [if_pos before]
    exact rep.levels level isLevel index before
  -- A new word has no bits, and no group of the set belongs there.
  rw [if_neg before, BitVec.getLsbD_zero]
  have notMember : index ∉ coarsen host.bitsPerLong (host.bottom - level) members := fun mem =>
    before (rep.div_lt isLevel (lt_of_mem_coarsen host.bitsPerLong_pos rep.within mem))
  have notSentinel : ¬ (level = 0 ∧ index = host.bitsPerLong - 1) := by
    rintro ⟨rfl, _⟩
    rw [rep.top_words] at before
    rw [sized.top_words] at inside
    exact before inside
  simp [notMember, notSentinel]

theorem round_up_eq {size granularity} (bounded : size ≤ 2 ^ 63 - 1) (granular : granularity < 64) :
    (size + 2 ^ granularity - 1) % 2 ^ 64 - (size + 2 ^ granularity - 1) %
    2 ^ 64 % 2 ^ granularity = groupsFor size granularity * 2 ^ granularity := by
  have power : 2 ^ granularity ≤ 2 ^ 63 := Nat.pow_le_pow_right (by decide) (by omega)
  have split := div_add_mod (size + 2 ^ granularity - 1) (2 ^ granularity)
  rw [mul_comm] at split
  rw [groupsFor_eq bounded granular, mod_eq_of_lt (by omega)]
  omega

theorem cut_range {size granularity} (shrink : groups < size)
    (room : size * 2 ^ granularity ≤ 2 ^ 63) :
    (size - groups) * 2 ^ granularity ≠ 0 ∧
      (groups * 2 ^ granularity) >>> granularity = groups ∧
      lastItem (groups * 2 ^ granularity) ((size - groups) * 2 ^ granularity)
          >>> granularity = size - 1 := by
  have pos := Nat.two_pow_pos granularity
  have total : groups * 2 ^ granularity +
      (size - groups) * 2 ^ granularity = size * 2 ^ granularity := by
    rw [← add_mul]
    congr 1
    omega
  have rest : (size - 1) * 2 ^ granularity + 2 ^ granularity = size * 2 ^ granularity := by
    rw [← succ_mul]
    congr 1
    omega
  have nonzero : 0 < (size - groups) * 2 ^ granularity := Nat.mul_pos (by omega) pos
  refine ⟨ne_of_gt nonzero, by rw [shiftRight_eq_div_pow, Nat.mul_div_cancel _ pos], ?_⟩
  have last : lastItem (groups * 2 ^ granularity) ((size - groups) * 2 ^ granularity) =
      2 ^ granularity * (size - 1) + (2 ^ granularity - 1) := by
    rw [lastItem, mul_comm (2 ^ granularity)]
    omega
  rw [last, shiftRight_eq_div_pow, mul_add_div pos, div_eq_of_lt (by omega), add_zero]

/-- Resizing keeps the groups that still fit. -/
theorem hbitmapTruncate_holds (holds : Holds hb members) {size : Nat} (bounded : size ≤ 2 ^ 63 - 1)
    (fits : groupsFor size hb.granularity ≤ 2 ^ host.logMaxSize) :
    ∃ hb', hbitmapTruncate hb size = some hb' ∧
      hb'.granularity = hb.granularity ∧ hb'.origSize = size ∧
      Holds hb' (members.filter (· < groupsFor size hb.granularity)) := by
  have granular := holds.granular
  set groups := groupsFor size hb.granularity with groups_eq
  rw [hbitmapTruncate, if_neg (not_not_intro bounded)]
  dsimp only
  rw [← groups_eq, if_neg (not_not_intro fits)]
  have top_groups : ∀ level, host.bottom + 1 = level + 1 →
      groups = (blocks host.bitsPerLong)^[host.bottom - level] groups := by
    intro level same
    obtain rfl : level = host.bottom := by omega
    rw [Nat.sub_self]
    rfl
  -- The new size is noted first.
  have noted : Represents { hb with origSize := size } members :=
    ⟨⟨holds.bounded, holds.words⟩, holds.within, holds.levels⟩
  by_cases same : groups = hb.size
  · rw [if_pos same]
    have all : members.filter (· < groups) = members := by
      refine filter_true_of_mem fun group mem => ?_
      rw [same]
      exact holds.within group mem
    rw [all]
    exact ⟨{ hb with origSize := size }, rfl, rfl, rfl, noted, holds.counted,
      granular, bounded, same.symm⟩
  rw [if_neg same]
  by_cases shrink : groups < hb.size
  · -- What is cut off is cleared first, as a range of items that ends with the last group.
    obtain ⟨some_, first, last⟩ := cut_range shrink holds.room
    have start_le := mul_le_mul_right (2 ^ hb.granularity) (le_of_lt shrink)
    have room := holds.room
    have fixCount : (hb.size <<< hb.granularity + 2 ^ 64 - groups * 2 ^ hb.granularity) % 2 ^ 64 =
        (hb.size - groups) * 2 ^ hb.granularity := by
      rw [Nat.shiftLeft_eq, Nat.sub_mul]
      omega
    obtain ⟨cleared, res, shape, rep, counted⟩ :=
      @hbitmapReset_spec host _ (groups * 2 ^ hb.granularity) _
      ((hb.size - groups) * 2 ^ hb.granularity) noted holds.counted
        (by omega) some_ (mul_mod_left _ _) (.inl (mul_mod_left _ _)) (by rw [first, last]; omega)
        (by rw [last]; change _ < hb.size; omega)
    have kept : members \ Finset.Icc groups (hb.size - 1) = members.filter (· < groups) := by
      ext group
      simp only [mem_sdiff, mem_Icc, mem_filter]
      refine and_congr_right fun mem => ?_
      have := holds.within group mem
      omega
    rw [first, last, kept] at rep counted
    have levels := @truncateLevels_spec host { cleared with
      size := groups } groups cleared.size (host.bottom + 1) groups
      (decide (groups < hb.size)) le_rfl (fun _ => by rw [shape]; exact le_of_lt shrink)
      (fun level below => rep.words level (le_of_lt_succ below)) top_groups
    refine ⟨_, ?_, ?_, ?_, rep.resized levels fits fun _ mem =>
      (mem_filter.mp mem).2, ?_, ?_, ?_, ?_⟩
    · rw [round_up_eq bounded granular, fixCount, ← groups_eq, if_pos shrink, if_neg some_, res]
      rfl
    all_goals rw [levels.frame]
    · rw [shape]
    · rw [shape]
    · exact counted
    · rw [shape]
      exact granular
    · rw [shape]
      exact bounded
    · rw [shape]
  have all : members.filter (· < groups) = members := by
    refine filter_true_of_mem fun group mem => ?_
    have := holds.within group mem
    omega
  have levels := @truncateLevels_spec host { hb with
    origSize := size, size := groups } groups hb.size (host.bottom + 1)
    groups (decide (groups < hb.size)) le_rfl (fun no => absurd (of_decide_eq_true no) shrink)
    (fun level below => holds.words level (le_of_lt_succ below)) top_groups
  rw [all]
  refine ⟨_, ?_, ?_, ?_, noted.resized levels fits fun group mem => ?_, ?_, ?_, ?_, ?_⟩
  · rw [if_neg shrink]
    rfl
  all_goals try rw [levels.frame]
  · have := holds.within group mem
    omega
  · exact holds.counted
  · exact granular
  · exact bounded

end Qemu.Util
