import Qemu.Lib.Transition
import Qemu.Virtio.Virtqueue

/-! The indices of a split ring and the number of elements in use always agree. -/

namespace Qemu.Virtio

open List Option

/-- Two states in which the positions and the number in use are the same. -/
structure SameAccounts (m m' : Machine) : Prop where
  vdev : m'.vdev = m.vdev
  vring : m'.vq.vring = m.vq.vring
  lastAvailIdx : m'.vq.lastAvailIdx = m.vq.lastAvailIdx
  lastAvailWrapCounter : m'.vq.lastAvailWrapCounter = m.vq.lastAvailWrapCounter
  usedIdx : m'.vq.usedIdx = m.vq.usedIdx
  usedWrapCounter : m'.vq.usedWrapCounter = m.vq.usedWrapCounter
  inuse : m'.vq.inuse = m.vq.inuse

/-- The device was marked broken, and is otherwise the same. -/
structure Broke (m m' : Machine) : Prop where
  broken : m'.vdev.broken = true
  disabled : m'.vdev.disabled = m.vdev.disabled
  ringPacked : m'.vdev.ringPacked = m.vdev.ringPacked

variable {m m' m'' : Machine} {guest : Guest}

theorem SameAccounts.refl (m) : SameAccounts m m := ⟨rfl, rfl, rfl, rfl, rfl, rfl, rfl⟩

theorem SameAccounts.trans (same : SameAccounts m m')
    (same' : SameAccounts m' m'') : SameAccounts m m'' :=
  ⟨same'.vdev.trans same.vdev, same'.vring.trans same.vring,
    same'.lastAvailIdx.trans same.lastAvailIdx,
    same'.lastAvailWrapCounter.trans same.lastAvailWrapCounter, same'.usedIdx.trans same.usedIdx,
    same'.usedWrapCounter.trans same.usedWrapCounter, same'.inuse.trans same.inuse⟩

theorem broke_virtioError (m message) : Broke m (virtioError m message) := ⟨rfl, rfl, rfl⟩

theorem SameAccounts.broke (same : SameAccounts m m') (broke : Broke m' m'') : Broke m m'' :=
  ⟨broke.broken, by rw [broke.disabled, same.vdev], by rw [broke.ringPacked, same.vdev]⟩

theorem sameAccounts_write (m guest writes) : SameAccounts m (m.write guest writes) := by
  rw [Machine.write]
  split
  · exact ⟨rfl, rfl, rfl, rfl, rfl, rfl, rfl⟩
  · exact .refl m

theorem sameAccounts_setAvailEvent (guest m val) :
    SameAccounts m (vringSetAvailEvent guest m val) := by
  rw [vringSetAvailEvent]
  split
  · exact sameAccounts_write m guest _
  · exact .refl m

theorem sameAccounts_queueEmpty (guest time m) :
    SameAccounts m (virtioQueueEmptyRcu guest time m).2 := by
  simp only [virtioQueueEmptyRcu, vringAvailIdx]
  split_ifs
  all_goals exact ⟨rfl, rfl, rfl, rfl, rfl, rfl, rfl⟩

theorem not_disabled_of_not_empty {time} (notEmpty : (virtioQueueEmptyRcu guest time m).1 = false) :
    virtioDeviceDisabled m.vdev = false := by
  rw [virtioQueueEmptyRcu] at notEmpty
  split at notEmpty
  · contradiction
  · rename_i works
    simpa using works

theorem sameAccounts_fill (guest m elem len idx) :
    SameAccounts m (virtqueueFill guest m elem len idx) := by
  rw [virtqueueFill]
  split_ifs
  · exact .refl m
  · exact ⟨rfl, rfl, rfl, rfl, rfl, rfl, rfl⟩
  · rw [virtqueueSplitFill]
    split
    · exact .refl m
    · exact sameAccounts_write m guest _

/-- What taking an element does to the accounts of a split ring. -/
structure Taken (m m' : Machine) : Prop where
  vdev : m'.vdev = m.vdev
  vring : m'.vq.vring = m.vq.vring
  lastAvailIdx : m'.vq.lastAvailIdx = m.vq.lastAvailIdx + 1#16
  usedIdx : m'.vq.usedIdx = m.vq.usedIdx
  inuse : m'.vq.inuse = m.vq.inuse + 1#32
  room : m.vq.inuse.toNat < m.vq.vring.num

variable {popped : Option VirtQueueElement}

/-- A pop takes one element and counts it, or breaks the device. -/
theorem splitPopChain_spec {head} (res : splitPopChain guest m head = some (popped, m')) :
    (popped = none ∧ Broke m m') ∨ ∃ elem m₁, popped = some elem ∧
    elem.ndescs = 1#32 ∧ SameAccounts m m₁ ∧
      m' = m₁.setQueue { m₁.vq with inuse := m₁.vq.inuse + 1#32 } := by
  rw [splitPopChain] at res
  -- The event index is written before anything can go wrong.
  obtain ⟨m₁, same, eq⟩ : ∃ m₁, SameAccounts m m₁ ∧
      (if m.vdev.eventIdx = true then vringSetAvailEvent guest m m.vq.lastAvailIdx else m) =
          m₁ := by
    refine ⟨_, ?_, rfl⟩
    split
    · exact sameAccounts_setAvailEvent guest m _
    · exact .refl m
  rw [eq] at res
  simp only at res
  split at res
  · cases res
    exact .inl ⟨rfl, same.broke (broke_virtioError m₁ _)⟩
  split at res
  · cases res
    exact .inl ⟨rfl, same.broke (broke_virtioError m₁ _)⟩
  split at res
  · contradiction
  · cases res
    exact .inl ⟨rfl, same.broke (broke_virtioError m₁ _)⟩
  · cases res
    exact .inr ⟨_, m₁, rfl, rfl, same, rfl⟩

/-- A pop takes one element and counts it, or finds nothing, or breaks the device. -/
theorem virtqueueSplitPop_spec (res : virtqueueSplitPop guest m = some (popped, m')) :
    (popped = none ∧ SameAccounts m m') ∨ (popped = none ∧ Broke m m') ∨
      ∃ elem, popped = some elem ∧ elem.ndescs = 1#32 ∧
          virtioDeviceDisabled m.vdev = false ∧ Taken m m' := by
  have same := sameAccounts_queueEmpty guest 0 m
  have works : (virtioQueueEmptyRcu guest 0 m).1 = false → virtioDeviceDisabled m.vdev = false :=
    not_disabled_of_not_empty
  rw [virtqueueSplitPop] at res
  generalize virtioQueueEmptyRcu guest 0 m = looked at res same works
  obtain ⟨empty, m₁⟩ := looked
  simp only at res same works
  split at res
  · cases res
    exact .inl ⟨rfl, same⟩
  rename_i notEmpty
  split at res
  · cases res
    exact .inr (.inl ⟨rfl, same.broke (broke_virtioError m₁ _)⟩)
  rename_i room
  split at res
  · cases res
    exact .inr (.inl ⟨rfl, same.broke ⟨rfl, rfl, rfl⟩⟩)
  -- From here on the index has moved, so that every error has to break the device.
  rcases splitPopChain_spec res with ⟨none, broke⟩ | ⟨elem, m₂, some, one, same₂, rfl⟩
  · exact .inr (.inl ⟨none, same.broke ⟨broke.broken, broke.disabled, broke.ringPacked⟩⟩)
  refine .inr (.inr ⟨elem, some, one, works (by simpa using notEmpty), ?_⟩)
  refine ⟨same₂.vdev.trans same.vdev, same₂.vring.trans same.vring, ?_,
    same₂.usedIdx.trans same.usedIdx, ?_, ?_⟩
  · rw [← same.lastAvailIdx]
    exact same₂.lastAvailIdx
  · rw [← same.inuse]
    exact congrArg (· + 1#32) same₂.inuse
  · rw [← same.inuse, ← same.vring]
    exact Nat.lt_of_not_le room

theorem virtqueueSplitFlush_spec (guest m count) :
    let m' := virtqueueSplitFlush guest m count
    m'.vdev = m.vdev ∧ m'.vq.vring = m.vq.vring ∧ m'.vq.lastAvailIdx = m.vq.lastAvailIdx ∧
      ((m'.vq.usedIdx = m.vq.usedIdx ∧ m'.vq.inuse = m.vq.inuse) ∨
        (m'.vq.usedIdx = m.vq.usedIdx + count.setWidth 16 ∧ m'.vq.inuse = m.vq.inuse - count)) := by
  have same := sameAccounts_write m guest [.usedIdx (m.vq.usedIdx + count.setWidth 16)]
  rw [virtqueueSplitFlush]
  split
  · exact ⟨rfl, rfl, rfl, .inl ⟨rfl, rfl⟩⟩
  · exact ⟨same.vdev, rfl, rfl, .inr ⟨rfl, rfl⟩⟩

/-- The accounts of a split ring: the indices differ by the number in use and what was lost. -/
structure SplitAccounts (u : QueueUse) : Prop where
  indices : u.m.vq.lastAvailIdx =
    u.m.vq.usedIdx + u.m.vq.inuse.setWidth 16 + BitVec.ofNat 16 u.discarded
  inuse_le : u.m.vq.inuse.toNat ≤ u.m.vq.vring.num
  held : u.popped.length + u.filled.length ≤ u.m.vq.inuse.toNat

/-- A split queue whose accounts are right unless the device is broken. -/
structure SplitUse (u : QueueUse) : Prop where
  split : u.m.vdev.ringPacked = false
  single : ∀ elem ∈ u.popped, elem.ndescs = 1#32
  accounts : u.m.vdev.broken = false → SplitAccounts u

variable {u u' : QueueUse}

/-- The accounts are those of the fields that they are about. -/
theorem SplitUse.same (use : SplitUse u) (same : SameAccounts u.m m') :
    SplitUse { u with m := m' } := by
  refine ⟨by rw [same.vdev]; exact use.split, use.single, fun works => ?_⟩
  have accounts := use.accounts (same.vdev ▸ works)
  exact ⟨by rw [same.lastAvailIdx, same.usedIdx, same.inuse]; exact accounts.indices,
    by rw [same.inuse, same.vring];
        exact accounts.inuse_le, by rw [same.inuse]; exact accounts.held⟩

/-- A broken device has no accounts. -/
theorem SplitUse.broke (use : SplitUse u) (broke : Broke u.m m') : SplitUse { u with m := m' } := by
  refine ⟨broke.ringPacked.trans use.split, use.single, fun works => ?_⟩
  rw [broke.broken] at works
  contradiction

theorem setWidth_add_one (inuse) : (inuse + 1#32).setWidth 16 = inuse.setWidth 16 + 1#16 := by
  rw [BitVec.setWidth_add _ _ (by decide)]
  rfl

theorem setWidth_sub (inuse count : BitVec 32) :
    (inuse - count).setWidth 16 = inuse.setWidth 16 - count.setWidth 16 := by
  apply BitVec.eq_of_toNat_eq
  simp only [BitVec.toNat_setWidth, BitVec.toNat_sub]
  omega

variable {popped filled : List VirtQueueElement}

/-- An element that is taken is counted. -/
theorem SplitUse.take (use : SplitUse u) (works : virtioDeviceDisabled u.m.vdev = false)
    (taken : Taken u.m m') (single : ∀ elem ∈ popped, elem.ndescs = 1#32)
    (held : popped.length + filled.length = u.popped.length + u.filled.length + 1) : SplitUse
    ⟨m', popped, filled, u.discarded⟩ := by
  rw [virtioDeviceDisabled, Bool.or_eq_false_iff] at works
  have accounts := use.accounts works.2
  -- There is room for one more, so that the count does not wrap around.
  have next : (u.m.vq.inuse + 1#32).toNat = u.m.vq.inuse.toNat + 1 := by
    have room := taken.room
    have small := u.m.vq.vring.num_le
    rw [virtqueueMaxSize] at small
    rw [BitVec.toNat_add, BitVec.toNat_ofNat]
    omega
  refine ⟨taken.vdev ▸ use.split, single, fun _ => ⟨?_, ?_, ?_⟩⟩
  · rw [taken.lastAvailIdx, taken.usedIdx, taken.inuse, accounts.indices, setWidth_add_one]
    ac_rfl
  · rw [taken.inuse, taken.vring, next]
    exact taken.room
  · rw [taken.inuse, next, held]
    exact Nat.succ_le_succ accounts.held

theorem SplitUse.pop (use : SplitUse u) {popped}
    (res : virtqueuePop guest u.m = some (popped, m')) :
    SplitUse { u with m := m', popped := popped.toList ++ u.popped } := by
  rw [virtqueuePop] at res
  split at res
  · cases res
    exact use
  rw [use.split, if_neg Bool.false_ne_true] at res
  rcases virtqueueSplitPop_spec res with ⟨rfl, same⟩ | ⟨rfl, broke⟩ | ⟨elem, rfl, one, works, taken⟩
  · exact use.same same
  · exact use.broke broke
  · refine use.take works taken ?_ ?_
    · simpa [one] using use.single
    · simp only [toList_some, singleton_append, length_cons]
      omega

variable {count : Nat}

theorem toNat_inuse_sub {inuse} (le : count ≤ inuse.toNat) :
    (inuse - BitVec.ofNat 32 count).toNat = inuse.toNat - count := by
  have small : count < 2 ^ 32 := lt_of_le_of_lt le inuse.isLt
  have count_eq : (BitVec.ofNat 32 count).toNat = count := Nat.mod_eq_of_lt small
  rw [BitVec.toNat_sub_of_le, count_eq]
  rw [BitVec.le_def, count_eq]
  exact le

/-- What is added to one index is taken off the distance to the other. -/
theorem add_sub_move (used inuse count : BitVec 16) :
    used + count + (inuse - count) = used + inuse := by
  rw [BitVec.add_assoc, BitVec.add_comm count, BitVec.sub_add_cancel]

/-- What is flushed on a disabled device is no longer in use, and counts as lost. -/
theorem indices_discard {avail used : BitVec 16} {inuse : BitVec 32} {discarded : Nat}
    (indices : avail = used + inuse.setWidth 16 + BitVec.ofNat 16 discarded) :
    avail = used + (inuse - BitVec.ofNat 32 count).setWidth 16 +
      BitVec.ofNat 16 (discarded + count) := by
  have cut : (BitVec.ofNat 32 count).setWidth 16 = BitVec.ofNat 16 count :=
    BitVec.setWidth_ofNat_of_le (by decide) count
  rw [indices, setWidth_sub, cut, BitVec.ofNat_add,
    ← add_sub_move used (inuse.setWidth 16) (BitVec.ofNat 16 count)]
  ac_rfl

theorem discardedAfter_of_enabled {vdev} (enabled : virtioDeviceDisabled vdev = false)
    (discarded count) : discardedAfter vdev discarded count = discarded := by
  rw [discardedAfter, enabled, if_neg Bool.false_ne_true]

/-- Some of the elements that the device holds are published, or lost if it is disabled. -/
theorem SplitUse.publish (use : SplitUse u) (guest : Guest)
    (single : ∀ elem ∈ popped, elem.ndescs = 1#32)
    (fewer : popped.length + filled.length + count = u.popped.length + u.filled.length) :
    SplitUse ⟨virtqueueFlush guest u.m (BitVec.ofNat 32 count), popped, filled,
      discardedAfter u.m.vdev u.discarded count⟩ := by
  rw [virtqueueFlush, discardedAfter]
  -- A disabled device gives the elements up without publishing them.
  split
  · refine ⟨use.split, single, fun works => ?_⟩
    have accounts := use.accounts works
    have held := accounts.held
    have toNat := toNat_inuse_sub (show count ≤ u.m.vq.inuse.toNat by omega)
    refine ⟨indices_discard accounts.indices, ?_, ?_⟩
    · simp only [Machine.setQueue, toNat]
      exact le_trans (Nat.sub_le _ _) accounts.inuse_le
    · simp only [Machine.setQueue, toNat]
      omega
  rename_i works
  simp only [use.split, if_neg Bool.false_ne_true]
  obtain ⟨vdev, vring, lastAvailIdx, moved⟩ :=
    virtqueueSplitFlush_spec guest u.m (BitVec.ofNat 32 count)
  rw [virtioDeviceDisabled, Bool.not_eq_true, Bool.or_eq_false_iff] at works
  have accounts := use.accounts works.2
  have held := accounts.held
  refine ⟨by rw [vdev]; exact use.split, single, fun _ => ?_⟩
  rcases moved with ⟨usedIdx, inuse⟩ | ⟨usedIdx, inuse⟩
  · -- Without a used ring nothing moves.
    refine ⟨by rw [lastAvailIdx, usedIdx, inuse]; exact accounts.indices,
      by rw [inuse, vring]; exact accounts.inuse_le, ?_⟩
    rw [inuse]
    show popped.length + filled.length ≤ _
    omega
  have toNat := toNat_inuse_sub (show count ≤ u.m.vq.inuse.toNat by omega)
  refine ⟨?_, ?_, ?_⟩
  · rw [lastAvailIdx, usedIdx, inuse, accounts.indices, setWidth_sub, add_sub_move]
  · rw [inuse, vring, toNat]
    exact le_trans (Nat.sub_le _ _) accounts.inuse_le
  · rw [inuse, toNat]
    show popped.length + filled.length ≤ _
    omega

/-- Elements that are returned are no longer in use, and their slots are available again. -/
theorem SplitUse.giveBack (use : SplitUse u) {vq}
    (vring : vq.vring = u.m.vq.vring) (usedIdx : vq.usedIdx = u.m.vq.usedIdx)
    (lastAvailIdx : vq.lastAvailIdx = u.m.vq.lastAvailIdx - (BitVec.ofNat 32 count).setWidth 16)
    (inuse : vq.inuse = u.m.vq.inuse - BitVec.ofNat 32 count)
    (single : ∀ elem ∈ popped, elem.ndescs = 1#32)
    (fewer : popped.length + count = u.popped.length) :
    SplitUse { u with m := u.m.setQueue vq, popped } := by
  refine ⟨use.split, single, fun works => ?_⟩
  have accounts := use.accounts works
  have held := accounts.held
  have toNat := toNat_inuse_sub (show count ≤ u.m.vq.inuse.toNat by omega)
  refine ⟨?_, ?_, ?_⟩
  · simp only [Machine.setQueue]
    rw [lastAvailIdx, usedIdx, inuse, accounts.indices, setWidth_sub, BitVec.sub_eq_add_neg,
      BitVec.sub_eq_add_neg]
    ac_rfl
  · simp only [Machine.setQueue]
    rw [inuse, vring, toNat]
    exact le_trans (Nat.sub_le _ _) accounts.inuse_le
  · simp only [Machine.setQueue]
    rw [inuse, toNat]
    omega

/-- An element that is dropped is taken and published at once. -/
theorem SplitUse.dropOne (use : SplitUse u) (guest time) : SplitUse
    { u with m := (splitDropOne guest time u.m).2 } := by
  have same := sameAccounts_queueEmpty guest time u.m
  have works : (virtioQueueEmptyRcu guest time u.m).1 = false →
    virtioDeviceDisabled u.m.vdev = false := not_disabled_of_not_empty
  rw [splitDropOne, virtioQueueSplitEmpty]
  generalize virtioQueueEmptyRcu guest time u.m = looked at same works
  obtain ⟨empty, m₁⟩ := looked
  simp only at same works ⊢
  split
  · exact use.same same
  rename_i found
  rw [Bool.or_eq_true, not_or, Bool.not_eq_true, decide_eq_true_eq, not_le] at found
  split
  · exact use.broke (same.broke (broke_virtioError m₁ _))
  rename_i head _
  -- The element is taken, and published at once.
  let m₂ := m₁.setQueue { m₁.vq with
    inuse := m₁.vq.inuse + 1#32, lastAvailIdx := m₁.vq.lastAvailIdx + 1#16 }
  let elem : VirtQueueElement := ⟨BitVec.ofNat 32 head, 0#32, [], []⟩
  have taken : Taken u.m m₂ := by
    refine ⟨same.vdev, same.vring, ?_, same.usedIdx, ?_, ?_⟩
    · rw [← same.lastAvailIdx]
      rfl
    · rw [← same.inuse]
      rfl
    · rw [← same.inuse, ← same.vring]
      exact found.2
  have held : SplitUse ⟨m₂, u.popped, elem :: u.filled, u.discarded⟩ :=
    use.take (works found.1) taken use.single (by simp only [length_cons]; omega)
  have event : SameAccounts m₂ (if m₂.vdev.eventIdx then vringSetAvailEvent guest m₂
      m₂.vq.lastAvailIdx else m₂) := by
    split
    · exact sameAccounts_setAvailEvent guest m₂ _
    · exact .refl m₂
  have written := event.trans (sameAccounts_fill guest _ elem 0#32 0#32)
  have published : SplitUse ⟨virtqueueFlush guest _ (BitVec.ofNat 32 1), u.popped, u.filled, _⟩ :=
    (held.same written).publish guest use.single (by simp only [length_cons]; omega)
  -- The device is not disabled, so that nothing is lost.
  have enabled :=
    (congrArg virtioDeviceDisabled (written.vdev.trans taken.vdev)).trans (works found.1)
  rw [discardedAfter_of_enabled enabled] at published
  exact published

/-- Dropping elements keeps the accounts. -/
theorem SplitUse.dropLoop {turns time dropped dropped'} (use : SplitUse { u with m })
    (res : virtqueueSplitDropAll guest turns time dropped m = some (dropped', m')) : SplitUse
    { u with m := m' } := by
  induction turns generalizing time dropped m with
  | zero => contradiction
  | succ turns ih =>
    have step := use.dropOne guest time
    rw [virtqueueSplitDropAll] at res
    simp only at res step
    split at res
    · exact ih step res
    · cases res
      exact step

/-- Every call keeps the accounts. -/
theorem SplitUse.step (use : SplitUse u) {call} (step : u.step call = some u') : SplitUse u' := by
  cases call with
  | pop guest =>
    obtain ⟨⟨popped, m'⟩, res, rfl⟩ := map_eq_some_iff.mp step
    exact use.pop res
  | fill guest elem len idx =>
    obtain ⟨mem, rfl⟩ := ite_some_none_eq_some.mp step
    have filled := use.same (sameAccounts_fill guest u.m elem len idx)
    have fewer := length_erase_add_one mem
    -- The element changes hands, from those that were popped to those that are filled in.
    refine ⟨filled.split, fun other inRest => use.single other (mem_of_mem_erase inRest),
      fun works => ?_⟩
    have accounts := filled.accounts works
    refine ⟨accounts.indices, accounts.inuse_le, ?_⟩
    have held := accounts.held
    simp only [length_cons] at held ⊢
    omega
  | flush guest =>
    cases step
    exact use.publish guest use.single (by simp only [length_nil]; omega)
  | push guest elem len =>
    obtain ⟨mem, rfl⟩ := ite_some_none_eq_some.mp step
    have fewer := length_erase_add_one mem
    have same := sameAccounts_fill guest u.m elem len 0#32
    have published : SplitUse
        ⟨virtqueueFlush guest _ (BitVec.ofNat 32 1), u.popped.erase elem, u.filled, _⟩ :=
      (use.same same).publish guest
        (fun other inRest => use.single other (mem_of_mem_erase inRest)) (by simp only; omega)
    rw [same.vdev] at published
    exact published
  | unpop =>
    obtain ⟨elem, rest, popped, rfl⟩ := QueueUse.step_unpop step
    have one := use.single elem (popped ▸ mem_cons_self)
    rw [virtqueueUnpop, use.split, if_neg Bool.false_ne_true]
    refine use.giveBack rfl rfl rfl
      ?_ (fun other inRest => use.single other (popped ▸ mem_cons_of_mem _ inRest)) ?_
    · rw [virtqueueDetachElement, one]
      rfl
    · rw [popped, length_cons]
  | rewind num =>
    obtain ⟨enough, rfl⟩ := ite_some_none_eq_some.mp step
    have single : ∀ elem ∈ u.popped.drop num, elem.ndescs = 1#32 :=
      fun elem inRest => use.single elem (mem_of_mem_drop inRest)
    have fewer : (u.popped.drop num).length + num = u.popped.length := by
      rw [length_drop, Nat.sub_add_cancel enough]
    simp only [virtqueueRewind, use.split, Bool.false_eq_true, if_false]
    split
    · rename_i tooMany
      -- The call is refused only by a device that is broken.
      refine ⟨use.split, single, fun works => ?_⟩
      have held := (use.accounts works).held
      rw [gt_iff_lt, BitVec.lt_def, BitVec.toNat_ofNat] at tooMany
      omega
    · exact use.giveBack rfl rfl rfl rfl single fewer
  | dropAll guest fuel =>
    obtain ⟨⟨dropped, m'⟩, res, rfl⟩ := map_eq_some_iff.mp step
    rw [virtqueueDropAll, use.split, if_neg Bool.false_ne_true] at res
    split at res
    · cases res
      exact use
    · exact use.dropLoop res
  | setDisabled disable =>
    cases step
    exact ⟨use.split, use.single, fun works =>
      have accounts := use.accounts works
      ⟨accounts.indices, accounts.inuse_le, accounts.held⟩⟩

/--
The accounts of a split ring are right after all calls while the device is not broken.

The guest may change its memory, and disable and enable the device, at any time.
Elements that are flushed while the device is disabled stay between the two indices for good.
-/
theorem split_accounts_run (u : QueueUse) (calls : List QueueCall)
    (u' : QueueUse) (use : SplitUse u)
    (ran : Transition.run QueueUse.step u calls = some u') (works : u'.m.vdev.broken = false) :
    u'.m.vq.lastAvailIdx =
        u'.m.vq.usedIdx + u'.m.vq.inuse.setWidth 16 + BitVec.ofNat 16 u'.discarded ∧
      u'.m.vq.inuse.toNat ≤ u'.m.vq.vring.num := by
  have use' : SplitUse u' :=
    Transition.run_preserves (fun _ _ _ use stepped => use.step stepped) use ran
  have accounts := use'.accounts works
  exact ⟨accounts.indices, accounts.inuse_le⟩

/-- A split queue after a reset, with rings that the guest has set up since. -/
def afterReset (vring : VRing) (eventIdx : Bool) : QueueUse where
  m :=
    { vdev := { broken := false, disabled := false, ringPacked := false, eventIdx, errors := [] }
      vq :=
        { vring, usedElems := fun _ => ⟨0#32, 0#32, 0#32⟩, lastAvailIdx := 0#16,
          lastAvailWrapCounter := true
          shadowAvailIdx := 0#16, shadowAvailWrapCounter := true, usedIdx := 0#16
          usedWrapCounter := true
          signalledUsed := 0#16, signalledUsedValid := false, notification := true, inuse := 0#32 }
      written := [] }
  popped := []
  filled := []
  discarded := 0

theorem splitUse_afterReset (vring eventIdx) : SplitUse (afterReset vring eventIdx) :=
  ⟨rfl, fun _ mem => absurd mem not_mem_nil, fun _ => ⟨rfl, Nat.zero_le _, le_rfl⟩⟩

/-- A guest that makes three chains of one descriptor available. -/
def sampleGuest : Guest where
  memory := fun _ =>
    { availIdx := 3#16
      availRing := fun i => BitVec.ofNat 16 i
      splitDesc := fun _ i => ⟨BitVec.ofNat 64 (4096 * i), 512#32, vringDescFWrite, 0#16⟩
      packedDesc := fun _ _ => ⟨0#64, 0#32, 0#16, 0#16⟩ }
  caches := some 64
  cacheInit := fun _ len => len.toNat
  dmaMemoryMap := fun _ _ sz => some sz

/-- The guest later, with two more chains. -/
def laterGuest : Guest :=
  { sampleGuest with memory := fun time => { sampleGuest.memory time with availIdx := 5#16 } }

def sampleVRing : VRing := ⟨4, 4096#64, 8192#64, 12288#64, by decide⟩

/-- Two elements are popped, one is pushed, one returned, and the rest dropped. -/
def sampleCalls : List QueueCall :=
  [.pop sampleGuest, .pop sampleGuest, .push sampleGuest ⟨0#32, 1#32, [], [⟨0#64, 512⟩]⟩ 512#32,
    .rewind 1, .dropAll sampleGuest 8]

/-- Then three more are popped, and one of them is pushed while the device is disabled. -/
def disabledCalls : List QueueCall :=
  sampleCalls ++ [.pop laterGuest, .pop laterGuest, .setDisabled true,
    .push laterGuest ⟨0#32, 1#32, [], [⟨0#64, 512⟩]⟩ 512#32, .setDisabled false]

/-- After the sample one element is lost, and another one is in use. -/
theorem split_accounts_run_sample :
    ∃ u', Transition.run QueueUse.step (afterReset sampleVRing false) disabledCalls = some u' ∧
      u'.m.vdev.broken = false ∧ u'.m.vq.lastAvailIdx = 5#16 ∧ u'.discarded = 1 ∧
      u'.m.vq.lastAvailIdx =
        u'.m.vq.usedIdx + u'.m.vq.inuse.setWidth 16 + BitVec.ofNat 16 u'.discarded ∧
      u'.m.vq.inuse.toNat ≤ u'.m.vq.vring.num := by
  have possible :
      (Transition.run QueueUse.step (afterReset sampleVRing false) disabledCalls).isSome := by
    decide +kernel
  obtain ⟨u', ran⟩ := isSome_iff_exists.mp possible
  have facts : ∀ found ∈ Transition.run QueueUse.step (afterReset sampleVRing false) disabledCalls,
      found.m.vdev.broken = false ∧ found.m.vq.lastAvailIdx = 5#16 ∧ found.discarded = 1 := by
    decide +kernel
  obtain ⟨works, last, discarded⟩ := facts u' ran
  exact ⟨u', ran, works, last, discarded,
    split_accounts_run _ _ u' (splitUse_afterReset sampleVRing false) ran works⟩

/-- An element that is pushed to a disabled device leaves the indices one further apart. -/
theorem split_accounts_disabled :
    ∃ u', Transition.run QueueUse.step (afterReset sampleVRing false)
        [.pop sampleGuest, .setDisabled true,
          .push sampleGuest ⟨0#32, 1#32, [], [⟨0#64, 512⟩]⟩ 512#32] = some u' ∧
      u'.m.vdev.broken = false ∧ u'.popped = [] ∧ u'.m.vq.inuse = 0#32 ∧
      u'.m.vq.lastAvailIdx ≠ u'.m.vq.usedIdx + u'.m.vq.inuse.setWidth 16 := by
  have possible : (Transition.run QueueUse.step (afterReset sampleVRing false)
      [.pop sampleGuest, .setDisabled true,
        .push sampleGuest ⟨0#32, 1#32, [], [⟨0#64, 512⟩]⟩ 512#32]).isSome := by decide +kernel
  obtain ⟨u', ran⟩ := isSome_iff_exists.mp possible
  have facts : ∀ found ∈ Transition.run QueueUse.step (afterReset sampleVRing false)
      [.pop sampleGuest, .setDisabled true,
        .push sampleGuest ⟨0#32, 1#32, [], [⟨0#64, 512⟩]⟩ 512#32],
      found.m.vdev.broken = false ∧ found.popped = [] ∧ found.m.vq.inuse = 0#32 ∧
        found.m.vq.lastAvailIdx ≠ found.m.vq.usedIdx + found.m.vq.inuse.setWidth 16 := by
    decide +kernel
  exact ⟨u', ran, facts u' ran⟩

theorem vq_write (m : Machine) (guest : Guest) (writes : List RingWrite) :
    (m.write guest writes).vq = m.vq := by
  rw [Machine.write]
  split <;> rfl

end Qemu.Virtio
