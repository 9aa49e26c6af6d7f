import Qemu.Util.HBitmapLevels

/-! Iteration over a bitmap: what the stale words still promise. -/

namespace Qemu.Util

open WordBits Pyramid Option Nat

variable {host : HostLong} {hb : HBitmap host} {members : Finset Nat} {group : Nat}

/-- The bit that stands for a number of the bottom level at another level. -/
def HostLong.indexAt (host : HostLong) (level n : Nat) : Nat :=
  n / host.bitsPerLong ^ (host.bottom - level)

@[simp] theorem HostLong.indexAt_bottom (host : HostLong) (n : Nat) :
    host.indexAt host.bottom n = n := by
  rw [HostLong.indexAt, Nat.sub_self, Nat.pow_zero, Nat.div_one]

theorem HostLong.indexAt_up (host : HostLong) {level}
    (isLevel : level + 1 ≤ host.bottom) (n : Nat) :
    host.indexAt level n = host.indexAt (level + 1) n / host.bitsPerLong := by
  have height : host.bottom - level = host.bottom - (level + 1) + 1 := by omega
  rw [HostLong.indexAt, HostLong.indexAt, height, Nat.pow_succ, Nat.div_div_eq_div_mul]

theorem HostLong.indexAt_div (host : HostLong) (level n : Nat) :
    host.indexAt level n / host.bitsPerLong = host.indexAt level (n / host.bitsPerLong) := by
  rw [HostLong.indexAt, HostLong.indexAt, Nat.div_div_eq_div_mul,
    Nat.div_div_eq_div_mul, Nat.mul_comm]

theorem HostLong.indexAt_mono (host : HostLong) (level : Nat) {m n} (order : m ≤ n) :
    host.indexAt level m ≤ host.indexAt level n := Nat.div_le_div_right order

theorem HostLong.lt_of_indexAt_lt (host : HostLong) {level m n}
    (larger : host.indexAt level m < host.indexAt level n) : m < n := by
  by_contra order
  exact absurd (host.indexAt_mono level (Nat.le_of_not_lt order)) (Nat.not_le_of_lt larger)

theorem HostLong.indexAt_congr (host : HostLong) {level level' m n} (above : level' ≤ level)
    (isLevel : level ≤ host.bottom) (same : host.indexAt level m = host.indexAt level n) :
    host.indexAt level' m = host.indexAt level' n := by
  induction level with
  | zero =>
    obtain rfl : level' = 0 := by omega
    exact same
  | succ level ih =>
    rcases eq_or_lt_of_le above with rfl | above
    · exact same
    · refine ih (le_of_lt_succ above) (by omega) ?_
      rw [host.indexAt_up isLevel, host.indexAt_up isLevel, same]

/-- A bitmap represents a set of groups. -/
structure Represents (hb : HBitmap host) (members : Finset Nat) : Prop extends Sized hb where
  within : ∀ group ∈ members, group < hb.size
  levels : ∀ level ≤ host.bottom, Shows hb members level

theorem HBitmap.indexAt_lt_bitsAt (hb : HBitmap host) (within : group < hb.size) (level : Nat) :
    host.indexAt level group < hb.bitsAt level :=
  lt_of_mem_coarsen host.bitsPerLong_pos (by simpa using within)
    (mem_coarsen.mpr ⟨group, Finset.mem_singleton_self group, rfl⟩)

theorem Sized.indexAt_lt (sized : Sized hb) {level pos} (isLevel : level ≤ host.bottom)
    (inside : pos < hb.sizes host.bottom) : host.indexAt level pos < hb.sizes level := by
  have bottom := sized.words host.bottom le_rfl
  rw [hb.bitsAt_bottom] at bottom
  rw [bottom] at inside
  have words : hb.sizes level = (blocks host.bitsPerLong)^[host.bottom - level]
      (blocks host.bitsPerLong hb.size) := by
    rw [sized.words level isLevel, HBitmap.bitsAt, ← Function.iterate_succ_apply,
      Function.iterate_succ_apply']
  have mem : host.indexAt level pos ∈ coarsen host.bitsPerLong (host.bottom - level) {pos} :=
    mem_coarsen.mpr ⟨pos, Finset.mem_singleton_self pos, rfl⟩
  rw [words]
  exact lt_of_mem_coarsen host.bitsPerLong_pos (by simpa using inside) mem

theorem Sized.indexAt_top (sized : Sized hb) {pos}
    (inside : pos < hb.sizes host.bottom) : host.indexAt 0 pos = 0 := by
  have := sized.indexAt_lt (Nat.zero_le _) inside
  have top := sized.words 0 (Nat.zero_le _)
  have few := sized.top_lt
  have one : blocks host.bitsPerLong (hb.bitsAt 0) ≤ 1 :=
    blocks_le host.bitsPerLong_pos Nat.one_pos (by omega)
  omega

theorem Represents.bit (represents : Represents hb members) {level} (isLevel : level ≤ host.bottom)
    (mem : group ∈ members) : hb.bit level (host.indexAt level group) := by
  refine (represents.levels level isLevel _ ?_).mpr (.inl (mem_coarsen.mpr ⟨group, mem, rfl⟩))
  exact represents.div_lt isLevel (hb.indexAt_lt_bitsAt (represents.within group mem) level)

/-- What the upper levels hold for an iterator: cached bits lie after the path to the current word,
and a group that stayed set and is to come has its bit cached where it leaves the path. -/
structure Upper (current : Nat) (cur : Nat → host.Word) (alive : Finset Nat)
    (frontier : Nat) : Prop where
  later : ∀ level < host.bottom, ∀ index, index / host.bitsPerLong = host.indexAt level current →
    (cur level).getLsbD (index % host.bitsPerLong) = true → host.indexAt (level + 1) current < index
  keeps : ∀ group ∈ alive, frontier ≤ group → ∀ level < host.bottom,
    host.indexAt level group / host.bitsPerLong = host.indexAt level current →
    host.indexAt level group ≠ host.indexAt (level + 1) current →
    (cur level).getLsbD (host.indexAt level group % host.bitsPerLong) = true
  sentinel : (cur 0).getLsbD (host.bitsPerLong - 1) = true

variable {alive : Finset Nat} {current frontier : Nat} {cur : Nat → host.Word}

/-- A level whose cached word is spent can be passed over upwards. -/
theorem Upper.passes (upper : Upper current cur alive frontier) (represents : Represents hb members)
    (subset : alive ⊆ members) {level} (isLevel : level < host.bottom)
    (left : ∀ group ∈ alive, frontier ≤ group →
      host.indexAt level group ≠ host.indexAt (level + 1) current)
    (spent : cur level &&& hb.levels level (host.indexAt level current) = 0#(host.bitsPerLong)) :
    ∀ group ∈ alive, frontier ≤ group → host.indexAt level group / host.bitsPerLong ≠
        host.indexAt level current := by
  intro group mem reached inWord
  -- The bit of the group is cached, and still set.
  have cached := upper.keeps group mem reached level isLevel inWord (left group mem reached)
  have isSet := represents.bit (le_of_lt isLevel) (subset mem)
  rw [HBitmap.bit, inWord] at isSet
  have := (eq_zero_iff _).mp spent (host.indexAt level group % host.bitsPerLong)
    (mod_lt _ host.bitsPerLong_pos)
  rw [BitVec.getLsbD_and, cached, isSet] at this
  contradiction

theorem Represents.sentinel (represents : Represents hb members) :
    (hb.levels 0 0).getLsbD (host.bitsPerLong - 1) := by
  have pos := host.bitsPerLong_pos
  have quotient : (host.bitsPerLong - 1) / host.bitsPerLong = 0 := div_eq_of_lt (by omega)
  have inside : (host.bitsPerLong - 1) / host.bitsPerLong < hb.sizes 0 := by
    rw [quotient, represents.words 0 (Nat.zero_le _)]
    exact lt_of_lt_of_le Nat.one_pos (Nat.le_max_right _ _)
  have isSet := (represents.levels 0 (Nat.zero_le _) _ inside).mpr (.inr ⟨rfl, rfl⟩)
  rwa [HBitmap.bit, quotient, mod_eq_of_lt (by omega)] at isSet

/-- The way up ends at a level with a bit to go on with, past no group to come. -/
theorem skipUp_spec (represents : Represents hb members) (upper : Upper current cur alive frontier)
    (subset : alive ⊆ members)
    (inside : current < hb.sizes host.bottom) {i} (isLevel : i < host.bottom)
    (left : ∀ group ∈ alive, frontier ≤ group →
      host.indexAt i group ≠ host.indexAt (i + 1) current) :
    ∃ j ≤ i, skipUp hb cur (i + 1) (host.indexAt (i + 1) current) =
        some (j, host.indexAt j current, cur j &&& hb.levels j (host.indexAt j current)) ∧
      cur j &&& hb.levels j (host.indexAt j current) ≠ 0#(host.bitsPerLong) ∧
      ∀ group ∈ alive, frontier ≤ group → host.indexAt j group ≠ host.indexAt (j + 1) current := by
  have word : hb.word? i (host.indexAt i current) = some (hb.levels i (host.indexAt i current)) :=
    if_pos (represents.indexAt_lt (le_of_lt isLevel) inside)
  have step : skipUp hb cur (i + 1) (host.indexAt (i + 1) current) =
      if cur i &&& hb.levels i (host.indexAt i current) = 0#(host.bitsPerLong)
      then skipUp hb cur i (host.indexAt i current)
      else some (i, host.indexAt i current, cur i &&& hb.levels i (host.indexAt i current)) := by
    rw [skipUp, host.shiftRight_eq, ← host.indexAt_up isLevel]
    simp [word]
  by_cases spent : cur i &&& hb.levels i (host.indexAt i current) = 0#(host.bitsPerLong)
  · rw [step, if_pos spent]
    cases i with
    | zero =>
      -- The sentinel is cached and set, so that the top level always has a bit.
      have := (eq_zero_iff _).mp spent (host.bitsPerLong - 1)
        (by have := host.bitsPerLong_pos; omega)
      rw [BitVec.getLsbD_and, upper.sentinel, represents.indexAt_top inside,
        represents.sentinel] at this
      contradiction
    | succ i =>
      have passed := upper.passes represents subset isLevel left spent
      obtain ⟨j, above, res, rest⟩ :=
        skipUp_spec represents upper subset inside (i := i) (lt_of_succ_lt isLevel)
        (fun group mem reached => by
          rw [host.indexAt_up (le_of_lt isLevel)]
          exact passed group mem reached)
      exact ⟨j, by omega, res, rest⟩
  · rw [step, if_neg spent]
    exact ⟨i, le_rfl, rfl, spent, left⟩

/-- A path of the lowest bits below a word. -/
structure Descent (hb : HBitmap host) (i pos : Nat) (word : host.Word)
    (cur : Nat → host.Word) (pos' : Nat) (word' : host.Word) (cur' : Nat → host.Word) : Prop where
  inside : pos' < hb.sizes host.bottom
  start : host.indexAt i pos' = pos
  found : word' = if i = host.bottom then word else hb.levels host.bottom pos'
  nonzero : word' ≠ 0#(host.bitsPerLong)
  others : ∀ level, level < i ∨ host.bottom ≤ level → cur' level = cur level
  steps : ∀ level, i ≤ level → level < host.bottom → ∃ w : host.Word, w ≠ 0#(host.bitsPerLong) ∧
    w = (if level = i then word else hb.levels level (host.indexAt level pos')) ∧
      cur' level = clearLowest w ∧
    host.indexAt (level + 1) pos' = host.indexAt level pos' * host.bitsPerLong + w.ctz.toNat

/-- The way down from a bit in use ends at a word in use. -/
theorem skipDown_spec (represents : Represents hb members) {left i pos word}
    (levels : left + i = host.bottom) (inside : pos < hb.sizes i)
    (nonzero : word ≠ 0#(host.bitsPerLong))
    (inUse : pos * host.bitsPerLong + word.ctz.toNat ∈ coarsen host.bitsPerLong
      (host.bottom - i) members) :
    ∃ pos' word' cur', skipDown hb left i pos word cur = some (pos', word', cur') ∧
      Descent hb i pos word cur pos' word' cur' := by
  induction left generalizing i pos word cur with
  | zero =>
    obtain rfl : i = host.bottom := by omega
    refine ⟨pos, word, cur, rfl, inside, host.indexAt_bottom pos, (if_pos rfl).symm,
      nonzero, fun _ _ => rfl, ?_⟩
    intro level lower upper
    omega
  | succ left ih =>
    have isLevel : i + 1 ≤ host.bottom := by omega
    -- The bit in use is a word of the next level, which is not zero.
    have child : pos * host.bitsPerLong + word.ctz.toNat < hb.sizes (i + 1) := by
      rw [← represents.bitsAt_eq isLevel]
      exact lt_of_mem_coarsen host.bitsPerLong_pos represents.within inUse
    have shown := represents.levels (i + 1) isLevel
    have childNonzero := (shown.word_ne_zero_iff isLevel child).mpr inUse
    set next := hb.levels (i + 1) (pos * host.bitsPerLong + word.ctz.toNat) with next_eq
    have lowest := ctz_lt childNonzero
    have childInUse : (pos * host.bitsPerLong + word.ctz.toNat) * host.bitsPerLong +
      next.ctz.toNat ∈ coarsen host.bitsPerLong (host.bottom - (i + 1)) members := by
      have isSet : hb.bit (i + 1) ((pos * host.bitsPerLong + word.ctz.toNat) * host.bitsPerLong +
        next.ctz.toNat) = true := by
        rw [HBitmap.bit, host.div_index _ lowest, host.mod_index _ lowest]
        exact BitVec.getLsbD_true_ctz_of_ne_zero childNonzero
      rcases (shown _ (by rw [host.div_index _ lowest]; exact child)).mp isSet with mem | ⟨top, _⟩
      · exact mem
      · omega
    obtain ⟨pos', word', cur', res, descent⟩ := @ih (setAt cur i (clearLowest word)) (i + 1)
      (pos * host.bitsPerLong + word.ctz.toNat) next (by omega) child childNonzero childInUse
    have start : host.indexAt i pos' = pos := by
      rw [host.indexAt_up isLevel, descent.start, host.div_index _ (ctz_lt nonzero)]
    refine ⟨pos', word', cur', ?_, descent.inside, start, ?_, descent.nonzero, ?_, ?_⟩
    · rw [skipDown, if_neg nonzero, host.shiftLeft_eq]
      simp only [HBitmap.word?, child, if_true, bind_eq_bind, bind_some]
      exact res
    · have notLast : i ≠ host.bottom := Nat.ne_of_lt isLevel
      rw [descent.found, if_neg notLast]
      split
      · rename_i last
        rw [next_eq, ← descent.start, last, host.indexAt_bottom]
      · rfl
    · intro level out
      rw [descent.others level (by omega)]
      exact if_neg (by omega)
    · intro level lower upper
      rcases eq_or_lt_of_le lower with rfl | below
      · refine ⟨word, nonzero, (if_pos rfl).symm, ?_, ?_⟩
        · rw [descent.others i (by omega)]
          exact if_pos rfl
        · rw [descent.start, start]
      obtain ⟨w, w_nonzero, w_eq, cleared, index⟩ := descent.steps level below upper
      refine ⟨w, w_nonzero, ?_, cleared, index⟩
      rw [w_eq, if_neg (ne_of_gt below)]
      split
      · rename_i same
        rw [next_eq, ← descent.start, same]
      · rfl

variable {j pos' : Nat} {word' : host.Word} {cur' : Nat → host.Word}

section

variable (represents : Represents hb members) (upper : Upper current cur alive frontier)
    (subset : alive ⊆ members) (descent : Descent hb j (host.indexAt j current)
    (cur j &&& hb.levels j (host.indexAt j current)) cur pos' word' cur')
  (left : ∀ group ∈ alive, frontier ≤ group → host.indexAt j group ≠ host.indexAt (j + 1) current)

include represents upper subset descent left

/-- On the way down a group still to come has its bit at every level. -/
theorem Descent.holds {level} (mem : group ∈ alive) (reached : frontier ≤ group)
    (isLevel : level < host.bottom)
    (inWord : host.indexAt level group / host.bitsPerLong = host.indexAt level pos') :
    (if level = j then cur j &&& hb.levels j (host.indexAt j current)
      else hb.levels level (host.indexAt level pos')).getLsbD
          (host.indexAt level group % host.bitsPerLong) = true := by
  have isSet := represents.bit (le_of_lt isLevel) (subset mem)
  rw [HBitmap.bit, inWord] at isSet
  by_cases same : level = j
  · subst same
    rw [descent.start] at inWord isSet
    rw [if_pos rfl, BitVec.getLsbD_and, isSet, Bool.and_true]
    exact upper.keeps group mem reached level isLevel inWord (left group mem reached)
  · rw [if_neg same]
    exact isSet

/-- No group that is still to come is below the word that the way down ends at. -/
theorem Descent.passes (isLevel : j < host.bottom) (start : current * host.bitsPerLong ≤ frontier)
    (mem : group ∈ alive) (reached : frontier ≤ group) : pos' ≤ group / host.bitsPerLong := by
  have fromPos : current ≤ group / host.bitsPerLong := by
    rw [Nat.le_div_iff_mul_le host.bitsPerLong_pos]
    exact le_trans start reached
  -- Going down, the group is either beyond the path already or in the word of the path.
  have onPath : ∀ level, j ≤ level → level ≤ host.bottom →
      pos' < group / host.bitsPerLong ∨
          host.indexAt level pos' = host.indexAt level group / host.bitsPerLong := by
    intro level below
    induction below with
    | refl =>
      intro _
      rcases eq_or_lt_of_le (host.indexAt_mono j fromPos) with same | less
      · right
        rw [descent.start, same, host.indexAt_div]
      · left
        rw [← descent.start] at less
        exact host.lt_of_indexAt_lt less
    | @step level below ih =>
      intro isLevel'
      have here : level < host.bottom := isLevel'
      rcases ih (le_of_lt here) with beyond | same
      · exact .inl beyond
      obtain ⟨w, nonzero, w_eq, _, index⟩ := descent.steps level below here
      have bit := descent.holds represents upper subset left mem reached here same.symm
      rw [← w_eq] at bit
      have split := host.split_index (host.indexAt level group)
      have order : host.indexAt (level + 1) pos' ≤ host.indexAt (level + 1)
          (group / host.bitsPerLong) := by
        rw [index, ← host.indexAt_div, ← host.indexAt_up here, same, ← split, host.split_index]
        have := ctz_le bit
        omega
      rcases eq_or_lt_of_le order with equal | less
      · right
        rw [equal, host.indexAt_div]
      · exact .inl (host.lt_of_indexAt_lt less)
  rcases onPath host.bottom (le_of_lt isLevel) le_rfl with beyond | same
  · exact le_of_lt beyond
  · rw [host.indexAt_bottom, host.indexAt_bottom] at same
    exact Nat.le_of_eq same

/-- The levels above the bottom hold after the way down what they have to. -/
theorem Descent.keepsUpper (isLevel : j < host.bottom) (notSentinel : j = 0 →
      (cur j &&& hb.levels j (host.indexAt j current)).ctz.toNat ≠ host.bitsPerLong - 1)
    (inside : current < hb.sizes host.bottom) {frontier'} (onwards : frontier ≤ frontier') :
    Upper pos' cur' alive frontier' where
  later := by
    intro level isLevel' index inWord cached
    rcases lt_or_ge level j with above | below
    · -- Above the turn nothing changed.
      have path := host.indexAt_congr (le_of_lt above) (le_of_lt isLevel) descent.start
      have path' := host.indexAt_congr above (le_of_lt isLevel) descent.start
      rw [path] at inWord
      rw [descent.others level (.inl above)] at cached
      rw [path']
      exact upper.later level isLevel' index inWord cached
    obtain ⟨w, nonzero, _, cleared, next⟩ := descent.steps level below isLevel'
    have split := host.split_index index
    rw [cleared, getLsbD_clearLowest nonzero, Bool.and_eq_true, decide_eq_true_eq] at cached
    have := ctz_le cached.1
    rw [inWord] at split
    rw [next]
    omega
  keeps := by
    intro group mem reached level isLevel' inWord offPath
    have reached : frontier ≤ group := le_trans onwards reached
    rcases lt_or_ge level j with above | below
    · have path := host.indexAt_congr (le_of_lt above) (le_of_lt isLevel) descent.start
      have path' := host.indexAt_congr above (le_of_lt isLevel) descent.start
      rw [path] at inWord
      rw [path'] at offPath
      rw [descent.others level (.inl above)]
      exact upper.keeps group mem reached level isLevel' inWord offPath
    obtain ⟨w, nonzero, w_eq, cleared, next⟩ := descent.steps level below isLevel'
    have bit := descent.holds represents upper subset left mem reached isLevel' inWord
    rw [← w_eq] at bit
    rw [cleared, getLsbD_clearLowest nonzero, bit, Bool.true_and, decide_eq_true_eq]
    intro lowest
    have split := host.split_index (host.indexAt level group)
    rw [inWord, lowest] at split
    exact offPath (split.symm.trans next.symm)
  sentinel := by
    rcases Nat.eq_zero_or_pos j with rfl | below
    · obtain ⟨w, nonzero, w_eq, cleared, _⟩ := descent.steps 0 le_rfl isLevel
      rw [if_pos rfl] at w_eq
      have notLowest := notSentinel rfl
      rw [cleared, getLsbD_clearLowest nonzero, w_eq, BitVec.getLsbD_and, upper.sentinel,
        represents.indexAt_top inside, represents.sentinel]
      rw [represents.indexAt_top inside] at notLowest
      simpa using notLowest.symm
    · rw [descent.others 0 (.inl below)]
      exact upper.sentinel

end

theorem HostLong.bottom_pos (host : HostLong) : 0 < host.bottom := by
  cases host <;> decide

theorem Represents.top (represents : Represents hb members) (mem : group ∈ members) :
    host.indexAt 0 group / host.bitsPerLong = 0 ∧ host.indexAt 0 group < host.bitsPerLong - 1 := by
  have inUse := hb.indexAt_lt_bitsAt (represents.within group mem) 0
  have := represents.top_lt
  exact ⟨div_eq_of_lt (by omega), by omega⟩

/-- Only the sentinel left at the top: nothing is to come. -/
theorem Upper.finished (upper : Upper current cur alive frontier)
    (represents : Represents hb members)
    (subset : alive ⊆ members) (inside : current < hb.sizes host.bottom)
    (left : ∀ group ∈ alive, frontier ≤ group → host.indexAt 0 group ≠ host.indexAt 1 current)
    (alone : cur 0 &&& hb.levels 0 (host.indexAt 0 current) = host.sentinel) :
    ∀ group ∈ alive, ¬ frontier ≤ group := by
  intro group mem reached
  obtain ⟨inWord, before⟩ := represents.top (subset mem)
  have top := represents.indexAt_top inside
  have cached := upper.keeps group mem reached 0 host.bottom_pos (inWord.trans top.symm)
    (left group mem reached)
  have isSet := represents.bit (Nat.zero_le _) (subset mem)
  rw [HBitmap.bit, inWord] at isSet
  -- The bit of the group would be in the word, next to the sentinel.
  have bit := congrArg (BitVec.getLsbD · (host.indexAt 0 group % host.bitsPerLong)) alone
  simp only [BitVec.getLsbD_and, cached, top, isSet] at bit
  rw [HostLong.sentinel, getLsbD_one_shiftLeft (by omega), mod_eq_of_lt (by omega)] at bit
  simp at bit
  omega

/-- The lowest bit that the way up ends at is in use, unless it is the sentinel. -/
theorem Represents.lowest_inUse (represents : Represents hb members)
    (inside : current < hb.sizes host.bottom) (isLevel : j < host.bottom)
    (nonzero : cur j &&& hb.levels j (host.indexAt j current) ≠ 0#(host.bitsPerLong))
    (notAlone : ¬ (j = 0 ∧ cur j &&& hb.levels j (host.indexAt j current) = host.sentinel)) :
    (j = 0 → (cur j &&& hb.levels j (host.indexAt j current)).ctz.toNat ≠ host.bitsPerLong - 1) ∧
      host.indexAt j current * host.bitsPerLong +
        (cur j &&& hb.levels j (host.indexAt j current)).ctz.toNat ∈
        coarsen host.bitsPerLong (host.bottom - j) members := by
  set word := cur j &&& hb.levels j (host.indexAt j current) with word_eq
  have lowest := ctz_lt nonzero
  have notSentinel : j = 0 → word.ctz.toNat ≠ host.bitsPerLong - 1 := by
    -- If the sentinel were the lowest bit, it would be the only one.
    intro isTop isLast
    refine notAlone ⟨isTop, BitVec.eq_of_getLsbD_eq fun i within => ?_⟩
    rw [HostLong.sentinel, getLsbD_one_shiftLeft (by omega)]
    by_cases same : host.bitsPerLong - 1 = i
    · rw [decide_eq_true same, ← same, ← isLast]
      exact BitVec.getLsbD_true_ctz_of_ne_zero nonzero
    · rw [decide_eq_false same]
      exact BitVec.getLsbD_false_of_lt_ctz (by omega)
  refine ⟨notSentinel, ?_⟩
  have isSet : hb.bit j (host.indexAt j current * host.bitsPerLong + word.ctz.toNat) := by
    have := BitVec.getLsbD_true_ctz_of_ne_zero nonzero
    nth_rewrite 1 [word_eq] at this
    rw [BitVec.getLsbD_and, Bool.and_eq_true] at this
    rw [HBitmap.bit, host.div_index _ lowest, host.mod_index _ lowest]
    exact this.2
  have inLevel := represents.indexAt_lt (le_of_lt isLevel) inside
  rcases (represents.levels j (le_of_lt isLevel)
      _ (by rw [host.div_index _ lowest]; exact inLevel)).mp isSet with
    mem | ⟨rfl, isLast⟩
  · exact mem
  · rw [represents.indexAt_top inside, Nat.zero_mul, Nat.zero_add] at isLast
    exact absurd isLast (notSentinel rfl)

/-- Either no group is to come and nothing changes, or the iterator ends at a later word in use;
none to come is skipped. -/
theorem hbitmapIterSkipWords_spec (represents : Represents hb members) (subset : alive ⊆ members)
    {hbi} (upper : Upper hbi.pos hbi.cur alive frontier) (inside : hbi.pos < hb.sizes host.bottom)
    (start : hbi.pos * host.bitsPerLong ≤ frontier)
    (stop : frontier ≤ (hbi.pos + 1) * host.bitsPerLong)
    (spent : ∀ group ∈ alive, frontier ≤ group → group / host.bitsPerLong ≠ hbi.pos) :
    hbitmapIterSkipWords hb hbi = some (0#(host.bitsPerLong), hbi) ∧
      (∀ group ∈ alive, ¬ frontier ≤ group) ∨ ∃ pos' cur', hbitmapIterSkipWords hb hbi =
          some (hb.levels host.bottom pos', { hbi with pos := pos', cur := cur' }) ∧
        hb.levels host.bottom pos' ≠ 0#(host.bitsPerLong) ∧ hbi.pos < pos' ∧
          pos' < hb.sizes host.bottom ∧ Upper pos' cur' alive (pos' * host.bitsPerLong) ∧
        ∀ group ∈ alive, frontier ≤ group → pos' * host.bitsPerLong ≤ group := by
  obtain ⟨i, bottom_eq⟩ : ∃ i, host.bottom = i + 1 :=
    ⟨host.bottom - 1, by have := host.bottom_pos; omega⟩
  have isBottom : i < host.bottom := by omega
  have atBottom : ∀ n, host.indexAt (i + 1) n = n := by
    intro n
    rw [← bottom_eq, host.indexAt_bottom]
  obtain ⟨j, above, up, nonzero, left⟩ := skipUp_spec represents upper subset inside isBottom
    (fun group mem reached => by
      rw [host.indexAt_up isBottom, atBottom, atBottom]
      exact spent group mem reached)
  rw [atBottom, ← bottom_eq] at up
  have isLevel : j < host.bottom := by omega
  rw [hbitmapIterSkipWords, up]
  simp only [bind_eq_bind, bind_some]
  by_cases alone : j = 0 ∧ hbi.cur j &&& hb.levels j (host.indexAt j hbi.pos) = host.sentinel
  · left
    rw [if_pos alone]
    obtain ⟨rfl, alone⟩ := alone
    exact ⟨rfl, upper.finished represents subset inside left alone⟩
  right
  rw [if_neg alone]
  obtain ⟨notSentinel, inUse⟩ := represents.lowest_inUse inside isLevel nonzero alone
  obtain ⟨pos', word', cur', down, descent⟩ :=
    @skipDown_spec host hb members hbi.cur represents (host.bottom - j) j
    _ _ (by omega) (represents.indexAt_lt (le_of_lt isLevel) inside) nonzero inUse
  have found : word' = hb.levels host.bottom pos' := by
    rw [descent.found, if_neg (Nat.ne_of_lt isLevel)]
  -- The turn is at a bit after the path, so that the new word is a later one.
  have later : hbi.pos < pos' := by
    obtain ⟨w, w_nonzero, w_eq, _, index⟩ := descent.steps j le_rfl isLevel
    rw [if_pos rfl] at w_eq
    have lowest := ctz_lt w_nonzero
    have cached := BitVec.getLsbD_true_ctz_of_ne_zero w_nonzero
    nth_rewrite 1 [w_eq] at cached
    rw [BitVec.getLsbD_and, Bool.and_eq_true] at cached
    refine @HostLong.lt_of_indexAt_lt host (j + 1) _ _ ?_
    rw [index, descent.start]
    refine upper.later j isLevel _ (host.div_index _ lowest) ?_
    rw [host.mod_index _ lowest]
    exact cached.1
  have onwards : frontier ≤ pos' * host.bitsPerLong :=
    le_trans stop (Nat.mul_le_mul_right _ later)
  refine ⟨pos', cur', ?_, found ▸ descent.nonzero, later, descent.inside,
    descent.keepsUpper represents upper subset left isLevel notSentinel inside onwards,
      fun group mem reached => ?_⟩
  · simp only [down, bind_some]
    rw [if_neg descent.nonzero, found]
    rfl
  · rw [← Nat.le_div_iff_mul_le host.bitsPerLong_pos]
    exact descent.passes represents upper subset left isLevel start mem reached

variable {hbi : HBitmapIter host}

/-- An iterator from a frontier on: nothing before is cached, and every group from there on that
stayed set is, at the level where its path leaves the current one. -/
structure IterFits (hb : HBitmap host) (hbi : HBitmapIter host) (alive : Finset Nat)
    (frontier : Nat) : Prop where
  granularity : hbi.granularity = hb.granularity
  inside : hbi.pos < hb.sizes host.bottom
  upper : Upper hbi.pos hbi.cur alive frontier
  start : hbi.pos * host.bitsPerLong ≤ frontier
  stop : frontier ≤ (hbi.pos + 1) * host.bitsPerLong
  later : ∀ bit, (hbi.cur host.bottom).getLsbD bit = true →
    frontier ≤ hbi.pos * host.bitsPerLong + bit
  keeps : ∀ group ∈ alive, frontier ≤ group → group / host.bitsPerLong = hbi.pos →
    (hbi.cur host.bottom).getLsbD (group % host.bitsPerLong) = true

theorem Upper.mono {frontier' alive'}
    (upper : Upper current cur alive frontier) (fewer : alive' ⊆ alive)
    (onwards : frontier ≤ frontier') (same : ∀ level < host.bottom, cur' level = cur level) :
    Upper current cur' alive' frontier' where
  later := by
    intro level isLevel index inWord cached
    rw [same level isLevel] at cached
    exact upper.later level isLevel index inWord cached
  keeps := by
    intro group mem reached level isLevel inWord offPath
    rw [same level isLevel]
    exact upper.keeps group (fewer mem) (le_trans onwards reached) level isLevel inWord offPath
  sentinel := by
    rw [same 0 host.bottom_pos]
    exact upper.sentinel

theorem IterFits.mono {alive'} (fits : IterFits hb hbi alive frontier) (fewer : alive' ⊆ alive) :
    IterFits hb hbi alive' frontier :=
  ⟨fits.granularity, fits.inside, fits.upper.mono fewer le_rfl fun _ _ =>
    rfl, fits.start, fits.stop, fits.later, fun group mem => fits.keeps group (fewer mem)⟩

theorem Represents.bottom_iff (represents : Represents hb members) {pos bit}
    (inside : pos < hb.sizes host.bottom) (within : bit < host.bitsPerLong) :
    (hb.levels host.bottom pos).getLsbD bit ↔ pos * host.bitsPerLong + bit ∈ members := by
  have shown := represents.levels host.bottom le_rfl (pos * host.bitsPerLong + bit)
    (by rw [host.div_index pos within]; exact inside)
  rw [HBitmap.bit, host.div_index pos within, host.mod_index pos within,
    Nat.sub_self, coarsen_zero] at shown
  rw [shown, or_iff_left]
  exact fun top => absurd top.1 (ne_of_gt host.bottom_pos)

theorem Represents.bit_bottom (represents : Represents hb members)
    (inside : group / host.bitsPerLong < hb.sizes host.bottom) :
    hb.bit host.bottom group ↔ group ∈ members := by
  have shown := represents.bottom_iff inside (mod_lt group host.bitsPerLong_pos)
  rwa [host.split_index] at shown

theorem Represents.bottom_set (represents : Represents hb members) {pos}
    (inside : pos < hb.sizes host.bottom)
    (inWord : group / host.bitsPerLong = pos) (mem : group ∈ members) :
    (hb.levels host.bottom pos).getLsbD (group % host.bitsPerLong) := by
  subst inWord
  exact (represents.bit_bottom inside).mpr mem

/-- Taking the lowest bit of a word: the next group, and an iterator after it. -/
theorem IterFits.take (frontier : Nat) (represents : Represents hb members) {pos word}
    (inside : pos < hb.sizes host.bottom) (nonzero : word ≠ 0#(host.bitsPerLong)) {upperFrontier}
    (upper : Upper pos cur alive upperFrontier)
    (reached : frontier ≤ pos * host.bitsPerLong + word.ctz.toNat)
    (upperReached : upperFrontier ≤ pos * host.bitsPerLong + word.ctz.toNat)
    (live : ∀ bit, word.getLsbD bit → (hb.levels host.bottom pos).getLsbD bit)
    (earliest : ∀ group ∈ alive, frontier ≤ group → pos * host.bitsPerLong ≤ group)
    (keeps : ∀ group ∈ alive, frontier ≤ group → group / host.bitsPerLong = pos →
      word.getLsbD (group % host.bitsPerLong)) :
    pos * host.bitsPerLong + word.ctz.toNat ∈ members ∧
      IterFits hb ⟨hb.granularity, pos, setAt cur host.bottom (clearLowest word)⟩ alive
        (pos * host.bitsPerLong + word.ctz.toNat + 1) ∧
      ∀ group ∈ alive, frontier ≤ group → pos * host.bitsPerLong + word.ctz.toNat ≤ group := by
  have lowest := ctz_lt nonzero
  have cleared : setAt cur host.bottom (clearLowest word) host.bottom = clearLowest word :=
    if_pos rfl
  refine ⟨?_, ⟨rfl, inside, upper.mono (Finset.Subset.refl _) (by omega) fun level isLevel => ?_,
    ?_, ?_, ?_, ?_⟩, ?_⟩
  · exact (represents.bottom_iff inside lowest).mp
      (live _ (BitVec.getLsbD_true_ctz_of_ne_zero nonzero))
  · exact if_neg (Nat.ne_of_lt isLevel)
  · change pos * host.bitsPerLong ≤ _
    omega
  · change _ ≤ (pos + 1) * host.bitsPerLong
    rw [Nat.add_mul, Nat.one_mul]
    omega
  · intro bit cached
    simp only [cleared] at cached
    rw [getLsbD_clearLowest nonzero, Bool.and_eq_true, decide_eq_true_eq] at cached
    have := ctz_le cached.1
    change _ ≤ pos * host.bitsPerLong + bit
    omega
  · -- A later group of the word is above the bit that was cleared.
    intro group mem beyond inWord
    change group / host.bitsPerLong = pos at inWord
    simp only [cleared]
    rw [getLsbD_clearLowest nonzero, keeps group mem (by omega) inWord,
      Bool.true_and, decide_eq_true_eq]
    have split := host.split_index group
    rw [inWord] at split
    omega
  · intro group mem beyond
    have split := host.split_index group
    rcases lt_or_ge (group / host.bitsPerLong) (pos + 1) with here | after
    · -- The group is in the word, whose lowest bit it is not below.
      have inWord : group / host.bitsPerLong = pos := by
        have := (Nat.le_div_iff_mul_le host.bitsPerLong_pos).mpr (earliest group mem beyond)
        omega
      have := ctz_le (keeps group mem beyond inWord)
      rw [inWord] at split
      omega
    · have := (Nat.le_div_iff_mul_le host.bitsPerLong_pos).mp after
      rw [Nat.add_mul, Nat.one_mul] at this
      omega

theorem item_eq {gran size} (within : group < size) (room : size * 2 ^ gran ≤ 2 ^ 63) :
    (BitVec.ofNat 64 (group <<< gran)).toInt = (group * 2 ^ gran : Nat) := by
  have pos := Nat.two_pow_pos gran
  have less : group * 2 ^ gran < 2 ^ 63 :=
    lt_of_lt_of_le (Nat.mul_lt_mul_of_pos_right within pos) room
  rw [Nat.shiftLeft_eq, BitVec.toInt_eq_toNat_of_lt]
  · rw [BitVec.toNat_ofNat, mod_eq_of_lt (by omega)]
  · rw [BitVec.toNat_ofNat, mod_eq_of_lt (by omega)]
    omega

/-- A step ends the iteration, with no group that stayed set to come, or returns a set group; it
skips none that stayed set. -/
theorem hbitmapIterNext_spec (represents : Represents hb members)
    (room : hb.size * 2 ^ hb.granularity ≤ 2 ^ 63)
    (subset : alive ⊆ members) (fits : IterFits hb hbi alive frontier) :
    hbitmapIterNext hb hbi = some (-1, hbi) ∧ (∀ group ∈ alive, ¬ frontier ≤ group) ∨
      ∃ group ∈ members, ∃ hbi', hbitmapIterNext hb hbi =
        some (((group * 2 ^ hb.granularity : Nat) : Int), hbi') ∧
        frontier ≤ group ∧ IterFits hb hbi' alive (group + 1) ∧ ∀ other ∈ alive,
            frontier ≤ other → group ≤ other := by
  have word : hb.word? host.bottom hbi.pos = some (hb.levels host.bottom hbi.pos) :=
    if_pos fits.inside
  rw [hbitmapIterNext, word]
  simp only [bind_eq_bind, bind_some]
  by_cases spent : hbi.cur host.bottom &&& hb.levels host.bottom hbi.pos = 0#(host.bitsPerLong)
  · rw [if_pos spent]
    -- A spent word holds none of the groups still to come.
    have passed : ∀ group ∈ alive, frontier ≤ group → group / host.bitsPerLong ≠ hbi.pos := by
      intro group mem reached inWord
      have isSet := represents.bottom_set fits.inside inWord (subset mem)
      have := (eq_zero_iff _).mp spent _ (mod_lt group host.bitsPerLong_pos)
      rw [BitVec.getLsbD_and, isSet, fits.keeps group mem reached inWord] at this
      contradiction
    rcases hbitmapIterSkipWords_spec represents subset fits.upper fits.inside
        fits.start fits.stop passed with
      ⟨res, done⟩ | ⟨pos', cur', res, nonzero, later, inside, upper, onwards⟩
    · left
      simp only [res, bind_some, if_true]
      exact ⟨rfl, done⟩
    right
    have reached : frontier ≤ pos' * host.bitsPerLong :=
      le_trans fits.stop (Nat.mul_le_mul_right _ later)
    obtain ⟨mem, fits', least⟩ := IterFits.take frontier represents inside nonzero upper
      (by omega) (by omega) (fun _ isSet => isSet) onwards
      (fun group mem _ inWord => represents.bottom_set inside inWord (subset mem))
    refine ⟨_, mem, _, ?_, by omega, fits', least⟩
    simp only [res, bind_some, if_neg nonzero, host.shiftLeft_eq, fits.granularity]
    rw [item_eq (represents.within _ mem) room]
    rfl
  rw [if_neg spent]
  right
  have lowest := BitVec.getLsbD_true_ctz_of_ne_zero spent
  nth_rewrite 1 [BitVec.getLsbD_and] at lowest
  rw [Bool.and_eq_true] at lowest
  have reached := fits.later _ lowest.1
  obtain ⟨mem, fits', least⟩ := IterFits.take frontier represents fits.inside spent fits.upper
    reached reached
    (fun bit isSet => by
      rw [BitVec.getLsbD_and, Bool.and_eq_true] at isSet
      exact isSet.2)
    (fun group mem reached => le_trans fits.start reached)
    (fun group mem reached inWord => by
      rw [BitVec.getLsbD_and, fits.keeps group mem reached inWord,
        represents.bottom_set fits.inside inWord (subset mem)]
      rfl)
  refine ⟨_, mem, _, ?_, reached, fits', least⟩
  simp only [if_neg spent, host.shiftLeft_eq, fits.granularity]
  rw [item_eq (represents.within _ mem) room]
  rfl

/-- What an iterator that starts at a group caches for each level. -/
def StartsAt (hb : HBitmap host) (first level : Nat) (word : host.Word) : Prop :=
  ∀ bit < host.bitsPerLong, (word.getLsbD bit = true ↔
    (hb.levels level (host.indexAt level first / host.bitsPerLong)).getLsbD bit = true ∧
      host.indexAt level first % host.bitsPerLong + (if level = host.bottom then 0 else 1) ≤ bit)

/-- The loop over the levels caches the right bits of each. -/
theorem iterInitLevels_spec (sized : Sized hb) {first}
    (inside : first / host.bitsPerLong < hb.sizes host.bottom)
    {i pos cur} (levels : i ≤ host.bottom + 1)
    (pos_eq : ∀ level, i = level + 1 → pos = host.indexAt level first) :
    ∃ cur', iterInitLevels hb i pos cur = some cur' ∧
      (∀ level < i, StartsAt hb first level (cur' level)) ∧
      ∀ level ≥ i, cur' level = cur level := by
  induction i generalizing pos cur with
  | zero => exact ⟨cur, rfl, fun level below => absurd below (Nat.not_lt_zero _), fun _ _ => rfl⟩
  | succ i ih =>
    have isLevel : i ≤ host.bottom := by omega
    obtain rfl := pos_eq i rfl
    have word : hb.word? i (host.indexAt i first / host.bitsPerLong) =
        some (hb.levels i (host.indexAt i first / host.bitsPerLong)) := by
      rw [host.indexAt_div]
      exact if_pos (sized.indexAt_lt isLevel inside)
    rw [iterInitLevels, host.shiftRight_eq, host.and_eq]
    simp only [word, bind_eq_bind, bind_some]
    set kept := hb.levels i (host.indexAt i first / host.bitsPerLong) &&&
      ~~~lowMask host.bitsPerLong (host.indexAt i first % host.bitsPerLong) with kept_eq
    -- The levels above start at the word's own bit.
    obtain ⟨cur', res, starts, others⟩ := @ih (host.indexAt i first / host.bitsPerLong)
      (setAt cur i (if i = host.bottom then kept
        else kept &&& ~~~(1#(host.bitsPerLong) <<< (host.indexAt i first % host.bitsPerLong))))
          (by omega) (fun level above => by
        subst above
        rw [← host.indexAt_up isLevel])
    refine ⟨cur', res, fun level below => ?_, fun level above => ?_⟩
    · rcases eq_or_lt_of_le (le_of_lt_succ below) with rfl | below
      · intro bit within
        have position := mod_lt (host.indexAt level first) host.bitsPerLong_pos
        rw [others level le_rfl, setAt, if_pos rfl]
        by_cases isBottom : level = host.bottom
        · rw [if_pos isBottom, if_pos isBottom, kept_eq, BitVec.getLsbD_and, BitVec.getLsbD_not,
            getLsbD_lowMask position]
          simp [within]
        rw [if_neg isBottom, if_neg isBottom, kept_eq, BitVec.getLsbD_and,
          BitVec.getLsbD_and, BitVec.getLsbD_not,
          BitVec.getLsbD_not, getLsbD_lowMask position, getLsbD_one_shiftLeft position]
        simp only [within, decide_true, Bool.true_and, Bool.and_eq_true,
          and_assoc, Bool.not_eq_true', decide_eq_false_iff_not]
        exact and_congr_right fun _ => by omega
      · exact starts level below
    · rw [others level (by omega)]
      exact if_neg (by omega)

/-- An iteration starts with everything set from its first group on still to come. -/
theorem hbitmapIterInit_spec (represents : Represents hb members) {item}
    (within : item >>> hb.granularity < hb.size) :
    ∃ hbi, hbitmapIterInit hb item = some hbi ∧ IterFits hb hbi members (item >>> hb.granularity) ∧
      ∀ bit, (hbi.cur host.bottom).getLsbD bit → (hb.levels host.bottom hbi.pos).getLsbD bit := by
  set first := item >>> hb.granularity with first_eq
  have inside := represents.word_lt within
  obtain ⟨cur, res, starts, _⟩ :=
    @iterInitLevels_spec host hb represents.toSized first inside (host.bottom + 1)
    first (fun _ => 0#(host.bitsPerLong)) le_rfl (fun level same => by
      obtain rfl : level = host.bottom := by omega
      rw [host.indexAt_bottom])
  -- At the bottom, a cached bit is set and not before the first group.
  have bottom : ∀ bit, (cur host.bottom).getLsbD bit = true →
      (hb.levels host.bottom (first / host.bitsPerLong)).getLsbD bit = true ∧
          first % host.bitsPerLong ≤ bit := by
    intro bit cached
    have within : bit < host.bitsPerLong := by
      by_contra beyond
      rw [BitVec.getLsbD_of_ge _ _ (Nat.le_of_not_lt beyond)] at cached
      contradiction
    have starts := (starts host.bottom (lt_succ_self _) bit within).mp cached
    rwa [host.indexAt_bottom, if_pos rfl] at starts
  refine ⟨⟨hb.granularity, first / host.bitsPerLong, cur⟩, ?_, ?_,
    fun bit cached => (bottom bit cached).1⟩
  · rw [hbitmapIterInit, ← first_eq]
    simp only [within, not_true_eq_false, if_false, res, bind_eq_bind,
      bind_some, host.shiftRight_eq]
    rfl
  -- The bit of the first group at each level.
  have path : ∀ level < host.bottom,
      host.indexAt (level + 1) (first / host.bitsPerLong) = host.indexAt level first := by
    intro level isLevel
    rw [← host.indexAt_div, ← host.indexAt_up isLevel]
  have split := host.split_index first
  refine ⟨rfl, inside, ⟨?_, ?_, ?_⟩, ?_, ?_, ?_, ?_⟩
  · intro level isLevel index inWord cached
    have starts :=
      (starts level (lt_succ_of_lt isLevel) _ (mod_lt index host.bitsPerLong_pos)).mp cached
    rw [if_neg (Nat.ne_of_lt isLevel)] at starts
    have indexSplit := host.split_index index
    have firstSplit := host.split_index (host.indexAt level first)
    rw [path level isLevel]
    rw [inWord, ← host.indexAt_div] at indexSplit
    omega
  · intro group mem reached level isLevel inWord offPath
    have starts := starts level (lt_succ_of_lt isLevel)
        _ (mod_lt (host.indexAt level group) host.bitsPerLong_pos)
    rw [path level isLevel] at offPath
    have isSet := represents.bit (le_of_lt isLevel) mem
    rw [HBitmap.bit, inWord, ← host.indexAt_div] at isSet
    refine starts.mpr ⟨isSet, ?_⟩
    rw [if_neg (Nat.ne_of_lt isLevel)]
    have order := host.indexAt_mono level reached
    have groupSplit := host.split_index (host.indexAt level group)
    have firstSplit := host.split_index (host.indexAt level first)
    rw [inWord, ← host.indexAt_div] at groupSplit
    omega
  · have pos := host.bitsPerLong_pos
    refine (starts 0 (succ_pos _) _ (by omega)).mpr ⟨?_, ?_⟩
    · rw [host.indexAt_div, represents.indexAt_top inside]
      exact represents.sentinel
    rw [if_neg (Nat.ne_of_lt host.bottom_pos)]
    have inUse := hb.indexAt_lt_bitsAt within 0
    have := represents.top_lt
    rw [mod_eq_of_lt (by omega)]
    omega
  · change first / host.bitsPerLong * host.bitsPerLong ≤ first
    omega
  · change first ≤ (first / host.bitsPerLong + 1) * host.bitsPerLong
    have := mod_lt first host.bitsPerLong_pos
    rw [Nat.add_mul, Nat.one_mul]
    omega
  · intro bit cached
    have := (bottom bit cached).2
    change first ≤ first / host.bitsPerLong * host.bitsPerLong + bit
    omega
  · intro group mem reached inWord
    change group / host.bitsPerLong = first / host.bitsPerLong at inWord
    have position := mod_lt group host.bitsPerLong_pos
    have groupSplit := host.split_index group
    rw [inWord] at groupSplit
    refine (starts host.bottom (lt_succ_self _) _ position).mpr ?_
    rw [host.indexAt_bottom, if_pos rfl]
    exact ⟨represents.bottom_set inside inWord mem, by omega⟩

end Qemu.Util
