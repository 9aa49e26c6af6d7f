import Qemu.Lib.GuardedRun
import Qemu.Util.HBitmapResize

/-! Whole runs of updates of a bitmap, and the set they amount to. -/

namespace Qemu.Util

open WordBits Pyramid GuardedRun Option Finset Nat

variable {host : HostLong} {hb hb' : HBitmap host} {members : Finset Nat}

/-- A call that changes a bitmap, with its arguments of 64 bits. -/
inductive Update where
  | set (start count : UInt64)
  | reset (start count : UInt64)
  | resetAll
  | truncate (size : UInt64)
  deriving DecidableEq, Repr

/-- Make a call. -/
def Update.apply (hb : HBitmap host) : Update → Option (HBitmap host)
  | .set start count => hbitmapSet hb start.toNat count.toNat
  | .reset start count => hbitmapReset hb start.toNat count.toNat
  | .resetAll => some (hbitmapResetAll hb)
  | .truncate size => hbitmapTruncate hb size.toNat

/-- A call in a run, which goes on as long as no call failed. -/
def Update.step (state : Option (HBitmap host)) (update : Update) : Option (HBitmap host) :=
  state.bind update.apply

/-- What the called function asserts about its arguments. -/
def Update.Asserted (hb : HBitmap host) : Update → Prop
  | .set start count => count.toNat ≠ 0 →
      lastItem start.toNat count.toNat >>> hb.granularity < hb.size
  | .reset start count => count.toNat ≠ 0 →
    start.toNat % 2 ^ hb.granularity = 0 ∧
      (count.toNat % 2 ^ hb.granularity = 0 ∨ (start.toNat + count.toNat) % 2 ^ 64 = hb.origSize) ∧
      lastItem start.toNat count.toNat >>> hb.granularity < hb.size
  | .resetAll => True
  | .truncate size => size.toNat ≤ 2 ^ 63 - 1 ∧
      groupsFor size.toNat hb.granularity ≤ 2 ^ host.logMaxSize

/-- The range of a call ends within 64 bits. -/
def Update.InRange : Update → Prop
  | .set start count => start.toNat + count.toNat ≤ 2 ^ 64
  | .reset start count => start.toNat + count.toNat ≤ 2 ^ 64
  | .resetAll => True
  | .truncate _ => True

instance (hb : HBitmap host) (update : Update) : Decidable (update.Asserted hb) := by
  cases update <;> unfold Update.Asserted <;> infer_instance

instance (update : Update) : Decidable update.InRange := by
  cases update <;> unfold Update.InRange <;> infer_instance

/-- A call that may be made in a state of a run. -/
def Update.Proper (state : Option (HBitmap host)) (update : Update) : Prop :=
  (∀ hb ∈ state, update.Asserted hb) ∧ update.InRange

instance (state : Option (HBitmap host)) (update : Update) : Decidable (update.Proper state) := by
  unfold Update.Proper
  infer_instance

/-- The groups that items of a range belong to. -/
def groupsOf (granularity start count : Nat) : Finset Nat :=
  (Finset.Ico start (start + count)).image (· / 2 ^ granularity)

/-- What a call is for: how it changes a set of groups. -/
def Update.onGroups (granularity : Nat) (members : Finset Nat) : Update → Finset Nat
  | .set start count => members ∪ groupsOf granularity start.toNat count.toNat
  | .reset start count => members \ groupsOf granularity start.toNat count.toNat
  | .resetAll => ∅
  | .truncate size => members.filter fun group => group * 2 ^ granularity < size.toNat

/-- A call returns if its range is not empty as the source computes it. -/
def Update.Ordered (hb : HBitmap host) : Update → Prop
  | .set start count => count.toNat ≠ 0 →
    start.toNat >>> hb.granularity ≤ lastItem start.toNat count.toNat >>> hb.granularity
  | .reset start count => count.toNat ≠ 0 →
    start.toNat >>> hb.granularity ≤ lastItem start.toNat count.toNat >>> hb.granularity
  | .resetAll => True
  | .truncate _ => True

theorem lastItem_eq {start count} (some_ : count ≠ 0) (inRange : start + count ≤ 2 ^ 64) :
    lastItem start count = start + count - 1 := by
  rw [lastItem]
  omega

variable {update : Update} {granularity : Nat} {start last : Nat} {changed : Bool} {level : Nat}

theorem Update.InRange.ordered (inRange : update.InRange)
    (hb : HBitmap host) : update.Ordered hb := by
  have order : ∀ start count : Nat, count ≠ 0 → start + count ≤ 2 ^ 64 →
      start >>> hb.granularity ≤ lastItem start count >>> hb.granularity := by
    intro start count some_ inRange
    rw [lastItem_eq some_ inRange, Nat.shiftRight_eq_div_pow, Nat.shiftRight_eq_div_pow]
    exact Nat.div_le_div_right (by omega)
  cases update with
  | set start count => exact fun some_ => order _ _ some_ inRange
  | reset start count => exact fun some_ => order _ _ some_ inRange
  | resetAll => trivial
  | truncate size => trivial

/-- The groups of a range are those from its first item's to its last item's. -/
theorem groupsOf_eq {start count} (some_ : count ≠ 0) (inRange : start + count ≤ 2 ^ 64) :
    groupsOf granularity start count = Finset.Icc (start >>> granularity)
        (lastItem start count >>> granularity) := by
  have pos := Nat.two_pow_pos granularity
  ext group
  rw [groupsOf, lastItem_eq some_ inRange, Nat.shiftRight_eq_div_pow, Nat.shiftRight_eq_div_pow]
  simp only [mem_image, mem_Ico, mem_Icc]
  constructor
  · rintro ⟨item, ⟨lower, upper⟩, rfl⟩
    exact ⟨Nat.div_le_div_right lower, Nat.div_le_div_right (by omega)⟩
  · rintro ⟨lower, upper⟩
    -- The first item of the group is in the range, unless the range starts within the group.
    rcases lt_or_ge (group * 2 ^ granularity) start with before | after
    · refine ⟨start, ⟨le_rfl, by omega⟩, le_antisymm lower ?_⟩
      exact (le_div_iff_mul_le pos).mpr (le_of_lt before)
    · have := (le_div_iff_mul_le pos).mp upper
      exact ⟨group * 2 ^ granularity, ⟨after, by omega⟩, Nat.mul_div_cancel _ pos⟩

theorem lt_groupsFor_iff {size group} (bounded : size ≤ 2 ^ 63 - 1) (granular : granularity < 64) :
    group < groupsFor size granularity ↔ group * 2 ^ granularity < size := by
  have pos := Nat.two_pow_pos granularity
  rw [groupsFor_eq bounded granular, lt_iff_add_one_le, le_div_iff_mul_le pos, add_mul, one_mul]
  omega

/-- A call that is asserted and ordered returns; the bitmap then holds some other set, which a
proper range names. -/
theorem Update.apply_holds (holds : Holds hb members) (asserted : update.Asserted hb)
    (ordered : update.Ordered hb) :
    ∃ hb' members', update.apply hb = some hb' ∧ Holds hb' members' ∧
      hb'.granularity = hb.granularity ∧ ((∀ size, update ≠ .truncate size) → SameShape hb hb') ∧
      (update.InRange → members' = update.onGroups hb.granularity members) := by
  cases update with
  | set start count =>
    by_cases none_ : count.toNat = 0
    · refine ⟨hb, members, ?_, holds, rfl, fun _ => rfl, fun _ => ?_⟩
      · rw [Update.apply, hbitmapSet, if_pos none_]
        rfl
      · rw [Update.onGroups, groupsOf, none_, Nat.add_zero, Finset.Ico_self,
          Finset.image_empty, Finset.union_empty]
    · obtain ⟨hb', res, shape, rep, counted⟩ := hbitmapSet_spec holds.toRepresents holds.counted
        start.toNat_lt none_ (ordered none_) (asserted none_)
      refine ⟨hb', _, res, holds.ofShape shape rep
        counted, by rw [shape], fun _ => shape, fun inRange => ?_⟩
      rw [Update.onGroups, groupsOf_eq none_ inRange]
  | reset start count =>
    by_cases none_ : count.toNat = 0
    · refine ⟨hb, members, ?_, holds, rfl, fun _ => rfl, fun _ => ?_⟩
      · rw [Update.apply, hbitmapReset, if_pos none_]
        rfl
      · rw [Update.onGroups, groupsOf, none_, Nat.add_zero, Finset.Ico_self,
          Finset.image_empty, Finset.sdiff_empty]
    obtain ⟨aligned, whole, within⟩ := asserted none_
    obtain ⟨hb', res, shape, rep, counted⟩ := hbitmapReset_spec holds.toRepresents holds.counted
      start.toNat_lt none_ aligned whole (ordered none_) within
    refine ⟨hb', _, res, holds.ofShape shape rep
      counted, by rw [shape], fun _ => shape, fun inRange => ?_⟩
    rw [Update.onGroups, groupsOf_eq none_ inRange]
  | resetAll => exact ⟨hbitmapResetAll hb, ∅, rfl, hbitmapResetAll_holds holds, rfl,
      fun _ => rfl, fun _ => rfl⟩
  | truncate size =>
    obtain ⟨hb', res, granularity, _, kept⟩ := hbitmapTruncate_holds holds asserted.1 asserted.2
    refine ⟨hb', _, res, kept, granularity, fun ranged => absurd rfl (ranged size), fun _ => ?_⟩
    rw [Update.onGroups]
    exact Finset.filter_congr fun group _ => lt_groupsFor_iff asserted.1 holds.granular

theorem elemMask_ordered {mask} (res : elemMask host start last = some mask) : start ≤ last := by
  rw [elemMask] at res
  split at res
  case isTrue asserted => exact asserted.2
  case isFalse => contradiction

theorem ordered_of_word {update}
    (word_ordered : ∀ word changed word', update word = some (changed, word') → start ≤ last)
    (res : updateWord update hb level (start >>> host.bitsPerLevel) = some (changed, hb')) :
    start ≤ last := by
  simp only [updateWord, bind_eq_bind, bind_eq_some_iff] at res
  obtain ⟨word, _, ⟨changed', word'⟩, updated, _⟩ := res
  exact word_ordered word changed' word' updated

theorem ordered_of_words (several : start >>> host.bitsPerLevel < last >>> host.bitsPerLevel) :
    start ≤ last := by
  rw [host.shiftRight_eq, host.shiftRight_eq] at several
  by_contra order
  exact absurd (Nat.div_le_div_right (Nat.le_of_not_le order)) (Nat.not_le_of_lt several)

theorem setLevel_ordered (res : setLevel hb level start last = some (changed, hb')) :
    start ≤ last := by
  rw [setLevel] at res
  split at res
  case isTrue several => exact ordered_of_words several
  case isFalse =>
    refine ordered_of_word (fun word changed word' updated => ?_) res
    simp only [hbSetElem, bind_eq_bind, bind_eq_some_iff] at updated
    obtain ⟨mask, isMask, _⟩ := updated
    exact elemMask_ordered isMask

theorem resetLevel_ordered {answer} (res : resetLevel hb level start last = some answer) :
    start ≤ last := by
  rw [resetLevel] at res
  split at res
  case isTrue several => exact ordered_of_words several
  case isFalse =>
    simp only [bind_eq_bind, bind_eq_some_iff] at res
    obtain ⟨⟨changed, hb'⟩, res, _⟩ := res
    refine ordered_of_word (fun word changed word' updated => ?_) res
    simp only [hbResetElem, bind_eq_bind, bind_eq_some_iff] at updated
    obtain ⟨mask, isMask, _⟩ := updated
    exact elemMask_ordered isMask

variable {answer : Bool × HBitmap host}

theorem hbSetBetween_ordered (res : hbSetBetween level start last hb = some answer) :
    start ≤ last := by
  cases level with
  | zero => exact setLevel_ordered res
  | succ level =>
    simp only [hbSetBetween, bind_eq_bind, bind_eq_some_iff] at res
    obtain ⟨⟨changed, hb'⟩, res, _⟩ := res
    exact setLevel_ordered res

theorem hbResetBetween_ordered (res : hbResetBetween level start last hb = some answer) :
    start ≤ last := by
  cases level with
  | zero =>
    simp only [hbResetBetween, bind_eq_bind, bind_eq_some_iff] at res
    obtain ⟨answer, res, _⟩ := res
    exact resetLevel_ordered res
  | succ level =>
    simp only [hbResetBetween, bind_eq_bind, bind_eq_some_iff] at res
    obtain ⟨answer, res, _⟩ := res
    exact resetLevel_ordered res

/-- An update that returns passed its assertions. -/
theorem Update.of_returns (res : update.apply hb = some hb') :
    update.Asserted hb ∧ update.Ordered hb := by
  cases update with
  | set start count =>
    by_cases none_ : count.toNat = 0
    · exact ⟨fun some_ => absurd none_ some_, fun some_ => absurd none_ some_⟩
    rw [Update.apply, hbitmapSet, if_neg none_] at res
    obtain ⟨within, res⟩ := ite_none_left_eq_some.mp res
    simp only [bind_eq_bind, bind_eq_some_iff] at res
    obtain ⟨_, _, answer, res, _⟩ := res
    exact ⟨fun _ => not_not.mp within, fun _ => hbSetBetween_ordered res⟩
  | reset start count =>
    by_cases none_ : count.toNat = 0
    · exact ⟨fun some_ => absurd none_ some_, fun some_ => absurd none_ some_⟩
    rw [Update.apply, hbitmapReset, if_neg none_] at res
    obtain ⟨aligned, res⟩ := ite_none_left_eq_some.mp res
    obtain ⟨whole, res⟩ := ite_none_left_eq_some.mp res
    obtain ⟨within, res⟩ := ite_none_left_eq_some.mp res
    simp only [bind_eq_bind, bind_eq_some_iff] at res
    obtain ⟨_, _, answer, res, _⟩ := res
    exact ⟨fun _ => ⟨not_not.mp aligned, not_not.mp whole, not_not.mp within⟩,
      fun _ => hbResetBetween_ordered res⟩
  | resetAll => exact ⟨trivial, trivial⟩
  | truncate size =>
    rw [Update.apply, hbitmapTruncate] at res
    obtain ⟨bounded, res⟩ := ite_none_left_eq_some.mp res
    obtain ⟨fits, res⟩ := ite_none_left_eq_some.mp res
    exact ⟨⟨not_not.mp bounded, not_not.mp fits⟩, trivial⟩

/-- The levels of a bitmap agree with each other and with the count. -/
structure Coherent (hb : HBitmap host) : Prop where
  /-- A bit is set if the word below it is not zero; the sentinel always. -/
  summary : ∀ level < host.bottom, ∀ index, index / host.bitsPerLong < hb.sizes level →
    (hb.bit level index = true ↔ index < hb.sizes (level + 1) ∧
      hb.levels (level + 1) index ≠ 0#(host.bitsPerLong) ∨ level = 0 ∧ index = host.bitsPerLong - 1)
  /-- Nothing is set beyond the size. -/
  beyond : ∀ index ≥ hb.size, index / host.bitsPerLong < hb.sizes host.bottom →
    hb.bit host.bottom index = false
  /-- The count is the number of bits that are set at the bottom. -/
  total : hb.count =
    ((Finset.range (hb.sizes host.bottom * host.bitsPerLong)).filter fun index =>
      hb.bit host.bottom index = true).card

/-- A bitmap that holds a set is coherent at every level. -/
theorem Holds.coherent (holds : Holds hb members) : Coherent hb where
  summary := by
    intro level isLevel index inside
    rw [holds.levels level (le_of_lt isLevel) index inside]
    refine or_congr_left ⟨fun mem => ?_, fun ⟨below, nonzero⟩ => ?_⟩
    · have below : index < hb.sizes (level + 1) := by
        rw [← holds.bitsAt_eq isLevel]
        exact lt_of_mem_coarsen host.bitsPerLong_pos holds.within mem
      exact ⟨below, ((holds.levels (level + 1) isLevel).word_ne_zero_iff isLevel below).mpr mem⟩
    · exact ((holds.levels (level + 1) isLevel).word_ne_zero_iff isLevel below).mp nonzero
  beyond := by
    intro index above inside
    rw [Bool.eq_false_iff]
    exact fun isSet => absurd (holds.within index ((holds.bit_bottom inside).mp isSet))
      (not_lt_of_ge above)
  total := by
    rw [holds.counted]
    congr 1
    ext index
    rw [mem_filter, mem_range, ← div_lt_iff_lt_mul host.bitsPerLong_pos]
    constructor
    · intro mem
      have inside := holds.word_lt (holds.within index mem)
      exact ⟨inside, (holds.bit_bottom inside).mpr mem⟩
    · rintro ⟨inside, isSet⟩
      exact (holds.bit_bottom inside).mp isSet

variable {updates : List Update}

/-- A run of proper updates is the run of the set operations. -/
theorem run_holds (holds : Holds hb members)
    (proper : Guarded Update.step Update.Proper (some hb) updates) :
    ∃ hb', runFrom Update.step (some hb) updates = some hb' ∧ hb'.granularity = hb.granularity ∧
      Holds hb' (runFrom (Update.onGroups hb.granularity) members updates) := by
  induction updates generalizing hb members with
  | nil => exact ⟨hb, rfl, rfl, holds⟩
  | cons update rest ih =>
    obtain ⟨⟨asserted, inRange⟩, proper⟩ := proper
    obtain ⟨hb', members', res, holds', granularity, _, amounts⟩ :=
      Update.apply_holds holds (asserted hb rfl) (inRange.ordered hb)
    obtain rfl := amounts inRange
    have step : Update.step (some hb) update = some hb' := res
    rw [step] at proper
    obtain ⟨final, ran, same, held⟩ := ih holds' proper
    rw [granularity] at same held
    exact ⟨final, by rw [runFrom_cons, step, ran], same, held⟩

theorem run_failed (updates) :
    runFrom Update.step (none : Option (HBitmap host)) updates = none := by
  induction updates with
  | nil => rfl
  | cons update rest ih => exact ih

theorem run_returned_holds (holds : Holds hb members)
    (ret : runFrom Update.step (some hb) updates = some hb') : ∃ members', Holds hb' members' := by
  induction updates generalizing hb members with
  | nil =>
    cases ret
    exact ⟨members, holds⟩
  | cons update rest ih =>
    rw [runFrom_cons] at ret
    cases step : Update.step (some hb) update with
    | none =>
      rw [step, run_failed] at ret
      contradiction
    | some next =>
      rw [step] at ret
      obtain ⟨asserted, ordered⟩ := Update.of_returns step
      obtain ⟨hb', members', res, holds', _⟩ := Update.apply_holds holds asserted ordered
      have same : hb' = next := Option.some.inj (res.symm.trans step)
      exact ih (same ▸ holds') ret

/-- Every reachable bitmap holds some set of groups. -/
theorem reached_holds {size granularity}
    (reached : runFrom Update.step (hbitmapAlloc host size granularity) updates = some hb) :
    ∃ members, Holds hb members := by
  cases alloc : hbitmapAlloc host size granularity with
  | none =>
    rw [alloc, run_failed] at reached
    contradiction
  | some new =>
    obtain ⟨new', allocated', _, empty⟩ := hbitmapAlloc_spec (hbitmapAlloc_accepted alloc)
    obtain rfl : new' = new := Option.some.inj (allocated'.symm.trans alloc)
    rw [alloc] at reached
    exact run_returned_holds empty reached

/-- A bitmap refines a set of groups: every run of proper calls from a new bitmap returns, keeps the
levels coherent, and answers for each item what the set says after the same calls on groups. -/
theorem hbitmap_run_refines {size : Nat} {granularity : Int} {updates : List Update}
    (accepted : Accepted host size granularity)
    (proper : Guarded Update.step Update.Proper (hbitmapAlloc host size granularity) updates) :
    ∃ hb, runFrom Update.step (hbitmapAlloc host size granularity) updates = some hb ∧ Coherent hb ∧
      ∀ item, item / 2 ^ granularity.toNat < hb.size → hbitmapGet hb item =
        some (decide (item / 2 ^ granularity.toNat ∈
            runFrom (Update.onGroups granularity.toNat) ∅ updates)) := by
  obtain ⟨new, allocated, granularity_eq, empty⟩ := hbitmapAlloc_spec accepted
  rw [allocated] at proper
  obtain ⟨hb, ran, same, holds⟩ := run_holds empty proper
  rw [granularity_eq] at same holds
  refine ⟨hb, by rw [allocated, ran], holds.coherent, fun item within => ?_⟩
  rw [← same, ← Nat.shiftRight_eq_div_pow] at within
  rw [hbitmapGet_spec holds.toRepresents within, same, Nat.shiftRight_eq_div_pow]

/-- Calls with partial groups at both ends, a size that shrinks and one that grows. -/
def sampleUpdates : List Update := [.set 5 20, .reset 8 8, .truncate 18, .truncate 90, .set 70 1]

/-- A run on a new bitmap of 100 items in groups of eight. -/
theorem hbitmap_run_refines_sample :
    Accepted .bits64 100 3 ∧ Guarded Update.step Update.Proper
      (hbitmapAlloc .bits64 100 3) sampleUpdates ∧
      ∃ hb, runFrom Update.step (hbitmapAlloc .bits64 100 3) sampleUpdates = some hb ∧ Coherent hb ∧
        ∀ item, item / 2 ^ (3 : Int).toNat < hb.size → hbitmapGet hb item =
          some (decide (item / 2 ^ (3 : Int).toNat ∈
            runFrom (Update.onGroups (3 : Int).toNat) ∅ sampleUpdates)) := by
  have proper : Guarded Update.step Update.Proper (hbitmapAlloc .bits64 100 3)
    sampleUpdates := by decide +kernel
  exact ⟨by decide, proper, hbitmap_run_refines (by decide) proper⟩

/-- A range that wraps can pass `hbitmap_set`'s assertion and fail another. -/
theorem hbitmapSet_wraps :
    Accepted .bits64 10 0 ∧
      (∀ hb ∈ hbitmapAlloc .bits64 10 0, (Update.set 5 18446744073709551613).Asserted hb) ∧
      (hbitmapAlloc .bits64 10 0).isSome ∧
      Update.step (hbitmapAlloc .bits64 10 0) (.set 5 18446744073709551613) = none := by
  decide +kernel

end Qemu.Util
