import Qemu.Lib.RingPosition
import Qemu.Virtio.SplitAccounting

/-! Positions and descriptors in use of a packed ring agree while only single ones are returned. -/

namespace Qemu.Virtio

open RingPosition List Option Nat

def availSlot (vq : VirtQueue) : Slot := ⟨vq.lastAvailIdx.toNat, vq.lastAvailWrapCounter⟩

def usedSlot (vq : VirtQueue) : Slot := ⟨vq.usedIdx.toNat, vq.usedWrapCounter⟩

variable {vq : VirtQueue} {ndescs : BitVec 32}

/-- The code's conditional subtraction advances the slot. -/
theorem slot_advance {num} (small : num ≤ virtqueueMaxSize) {idx} (inside : idx.toNat < num)
    (le : ndescs.toNat ≤ num) (wrapCounter) :
    (if (idx + ndescs.setWidth 16).toNat ≥ num then
      (⟨(idx + ndescs.setWidth 16 - BitVec.ofNat 16 num).toNat, !wrapCounter⟩ : Slot)
    else ⟨(idx + ndescs.setWidth 16).toNat, wrapCounter⟩) =
        advance num ndescs.toNat ⟨idx.toNat, wrapCounter⟩ := by
  -- Moving on a position in 16 bits, with a comparison and a subtraction.
  have toNat_advance : (idx + ndescs.setWidth 16).toNat = idx.toNat + ndescs.toNat ∧
    (num ≤ idx.toNat + ndescs.toNat → (idx + ndescs.setWidth 16 - BitVec.ofNat 16 num).toNat =
          idx.toNat + ndescs.toNat - num) := by
    rw [virtqueueMaxSize] at small
    have sum : (idx + ndescs.setWidth 16).toNat = idx.toNat + ndescs.toNat := by
      rw [BitVec.toNat_add, BitVec.toNat_setWidth]
      omega
    refine ⟨sum, fun crosses => ?_⟩
    rw [BitVec.toNat_sub, sum, BitVec.toNat_ofNat]
    omega
  obtain ⟨sum, crossed⟩ := toNat_advance
  rw [advance_of_le inside le, sum]
  by_cases crosses : num ≤ idx.toNat + ndescs.toNat
  · rw [if_pos crosses, if_pos crosses, crossed crosses]
  · rw [if_neg crosses, if_neg crosses]

theorem availSlot_advanceAvail (inside : vq.lastAvailIdx.toNat < vq.vring.num)
    (le : ndescs.toNat ≤ vq.vring.num) :
    availSlot (advanceAvail vq ndescs) = advance vq.vring.num ndescs.toNat (availSlot vq) := by
  rw [availSlot, availSlot, ← slot_advance vq.vring.num_le inside le, advanceAvail]
  split <;> rfl

theorem usedSlot_advanceUsed (inside : vq.usedIdx.toNat < vq.vring.num)
    (le : ndescs.toNat ≤ vq.vring.num) :
    usedSlot (advanceUsed vq ndescs) = advance vq.vring.num ndescs.toNat (usedSlot vq) := by
  rw [usedSlot, usedSlot, ← slot_advance vq.vring.num_le inside le, advanceUsed]
  split <;> rfl

theorem advanceUsed_frame (vq ndescs) :
    (advanceUsed vq ndescs).vring = vq.vring ∧ availSlot (advanceUsed vq ndescs) = availSlot vq ∧
      (advanceUsed vq ndescs).inuse = vq.inuse := by
  rw [advanceUsed]
  split <;> exact ⟨rfl, rfl, rfl⟩

variable {vq' : VirtQueue}

theorem usedSlot_advanceUsed_congr (vring : vq'.vring = vq.vring)
    (used : usedSlot vq' = usedSlot vq) :
    usedSlot (advanceUsed vq' ndescs) = usedSlot (advanceUsed vq ndescs) := by
  obtain ⟨idx, wrap⟩ := Slot.mk.inj used
  simp only [advanceUsed, vring, BitVec.eq_of_toNat_eq idx, wrap]
  split <;> rfl

/-- Taking back slots is undone by going on. -/
theorem advance_packedRewind {num} (inside : vq.lastAvailIdx.toNat < vq.vring.num)
    (le : num.toNat ≤ vq.vring.num) :
    (virtqueuePackedRewind vq num).lastAvailIdx.toNat < vq.vring.num ∧
      advance vq.vring.num num.toNat (availSlot (virtqueuePackedRewind vq num)) = availSlot vq := by
  have small := vq.vring.num_le
  rw [virtqueueMaxSize] at small
  rw [virtqueuePackedRewind]
  -- Going back across the ring's start turns the wrap counter.
  by_cases crosses : vq.lastAvailIdx.toNat < num.toNat
  · have back : (BitVec.ofNat 16 vq.vring.num + vq.lastAvailIdx - num.setWidth 16).toNat =
        vq.vring.num + vq.lastAvailIdx.toNat - num.toNat := by
      rw [BitVec.toNat_sub, BitVec.toNat_add, BitVec.toNat_ofNat, BitVec.toNat_setWidth]
      omega
    rw [if_pos crosses]
    refine ⟨by simp only [back]; omega, ?_⟩
    rw [availSlot, availSlot]
    simp only [back]
    rw [advance_of_le (by omega) le, if_pos (by omega), Bool.not_not]
    congr 1
    omega
  have back : (vq.lastAvailIdx - num.setWidth 16).toNat = vq.lastAvailIdx.toNat - num.toNat := by
    rw [BitVec.toNat_sub, BitVec.toNat_setWidth]
    omega
  rw [if_neg crosses]
  refine ⟨by simp only [back]; omega, ?_⟩
  rw [availSlot, availSlot]
  simp only [back]
  rw [advance_of_le (by omega) le, if_neg (by omega)]
  congr 1
  omega

variable {u u' : QueueUse} {guest : Guest}

/-- The number of descriptors that some elements hold. -/
def descriptors (elems : List VirtQueueElement) : Nat :=
  (elems.map fun elem => elem.ndescs.toNat).sum

theorem descriptors_cons (elem rest) : descriptors (elem :: rest) =
    elem.ndescs.toNat + descriptors rest := by
  rw [descriptors, map_cons, sum_cons]
  rfl

/-- The positions of a packed ring differ by what is in use, which the device holds. -/
structure PackedAccounts (u : QueueUse) : Prop where
  position : availSlot u.m.vq = advance u.m.vq.vring.num u.m.vq.inuse.toNat (usedSlot u.m.vq)
  inuse : u.m.vq.inuse.toNat = descriptors u.popped

/-- Both positions are in the ring, with at most as many elements as slots. -/
structure PackedRange (u : QueueUse) : Prop where
  lastAvailIdx : u.m.vq.lastAvailIdx.toNat < u.m.vq.vring.num
  usedIdx : u.m.vq.usedIdx.toNat < u.m.vq.vring.num
  few : u.popped.length ≤ u.m.vq.vring.num
  inuse : u.m.vq.inuse.toNat < 2 * u.m.vq.vring.num

/-- A packed queue whose accounts are right unless the device is broken. -/
structure PackedUse (u : QueueUse) : Prop where
  packed : u.m.vdev.ringPacked = true
  filled : u.filled = []
  sizes : ∀ elem ∈ u.popped, 0 < elem.ndescs.toNat ∧ elem.ndescs.toNat ≤ u.m.vq.vring.num
  mapped : u.popped ≠ [] → u.m.vq.vring.desc ≠ 0#64
  range : u.m.vdev.broken = false → PackedRange u
  accounts : u.m.vdev.broken = false → PackedAccounts u

theorem PackedUse.same (use : PackedUse u) {m'} (same : SameAccounts u.m m') :
    PackedUse { u with m := m' } := by
  refine ⟨same.vdev ▸ use.packed, use.filled, ?_, ?_, fun works => ?_, fun works => ?_⟩
  · simp only [same.vring]
    exact use.sizes
  · simp only [same.vring]
    exact use.mapped
  · have range := use.range (same.vdev ▸ works)
    constructor <;> simp only [same.vring, same.lastAvailIdx, same.usedIdx, same.inuse]
    exacts [range.lastAvailIdx, range.usedIdx, range.few, range.inuse]
  · have accounts := use.accounts (same.vdev ▸ works)
    constructor <;> simp only [availSlot, usedSlot, same.vring, same.lastAvailIdx,
      same.lastAvailWrapCounter, same.usedIdx, same.usedWrapCounter, same.inuse]
    exacts [accounts.position, accounts.inuse]

theorem PackedUse.broke (use : PackedUse u) {m'} (broke : Broke u.m m')
    (vring : m'.vq.vring = u.m.vq.vring) : PackedUse { u with m := m' } := by
  have never : m'.vdev.broken = false → False := by
    intro works
    rw [broke.broken] at works
    contradiction
  refine ⟨broke.ringPacked.trans use.packed, use.filled, ?_, ?_,
    fun works => (never works).elim, fun works => (never works).elim⟩
  · simp only [vring]
    exact use.sizes
  · simp only [vring]
    exact use.mapped

variable {elems : List VirtQueueElement}

theorem length_le_descriptors (sizes : ∀ elem ∈ elems, 0 < elem.ndescs.toNat) :
    elems.length ≤ descriptors elems := by
  induction elems with
  | nil => exact le_rfl
  | cons elem rest ih =>
    have first := sizes elem mem_cons_self
    have others := ih fun other mem => sizes other (mem_cons_of_mem _ mem)
    rw [descriptors_cons, length_cons]
    omega

variable {m m' : Machine}

variable {indirect : Bool}

/-- A chain that is not indirect has no more descriptors than the ring. -/
theorem collectPacked_entries {descLen time num i chain id}
    (ok : collectPacked guest descLen time num i = .ok (chain, indirect, id))
    (direct : indirect = false) : 0 < chain.entries ∧ chain.entries ≤ num := by
  simp only [collectPacked] at ok
  split_ifs at ok
  · split at ok
    · obtain ⟨_, eq⟩ := Prod.mk.inj (Collected.ok.inj ok)
      rw [direct] at eq
      simp at eq
    · contradiction
    · contradiction
  split at ok
  · rename_i collected
    obtain ⟨rfl, _⟩ := Prod.mk.inj (Collected.ok.inj ok)
    have bounds := collectDescs_entries collected
    rw [Chain.empty] at bounds
    simp only at bounds
    omega
  · contradiction
  · contradiction

/-- What taking an element does to the accounts of a packed ring. -/
structure PackedTaken (m m' : Machine) (ndescs : BitVec 32) : Prop where
  vdev : m'.vdev = m.vdev
  vring : m'.vq.vring = m.vq.vring
  avail : availSlot m'.vq = availSlot (advanceAvail m.vq ndescs)
  used : usedSlot m'.vq = usedSlot m.vq
  inuse : m'.vq.inuse = m.vq.inuse + ndescs
  room : m.vq.inuse.toNat < m.vq.vring.num
  desc : m.vq.vring.desc ≠ 0#64
  positive : 0 < ndescs.toNat
  small : ndescs.toNat ≤ m.vq.vring.num

theorem availSlot_advanceAvail_inuse (vq inuse ndescs) :
    availSlot (advanceAvail { vq with inuse } ndescs) = availSlot (advanceAvail vq ndescs) := by
  simp only [advanceAvail]
  split <;> rfl

/-- A collected chain takes its descriptors from the ring. -/
theorem packedTaken_of_collected {descLen time i chain id}
    (collected : collectPacked guest descLen time m.vq.vring.num i = .ok (chain, indirect, id))
    (room : m.vq.inuse.toNat < m.vq.vring.num) (desc : m.vq.vring.desc ≠ 0#64) :
    let ndescs := if indirect then 1#32 else BitVec.ofNat 32 chain.entries
    let vq := advanceAvail { m.vq with inuse := m.vq.inuse + ndescs } ndescs
    PackedTaken m (m.setQueue { vq with
      shadowAvailIdx := vq.lastAvailIdx
      shadowAvailWrapCounter := vq.lastAvailWrapCounter }) ndescs := by
  intro ndescs vq
  have bounds : 0 < ndescs.toNat ∧ ndescs.toNat ≤ m.vq.vring.num := by
    cases indirect with
    | true => exact ⟨Nat.one_pos, by show 1 ≤ _; omega⟩
    | false =>
      have entries := collectPacked_entries collected rfl
      have small := m.vq.vring.num_le
      rw [virtqueueMaxSize] at small
      show 0 < (BitVec.ofNat 32 chain.entries).toNat ∧ (BitVec.ofNat 32 chain.entries).toNat ≤ _
      rw [BitVec.toNat_ofNat, mod_eq_of_lt (by omega)]
      exact entries
  refine ⟨rfl, ?_, availSlot_advanceAvail_inuse m.vq _ ndescs, ?_, ?_, room,
    desc, bounds.1, bounds.2⟩
  all_goals
    simp only [vq, advanceAvail, Machine.setQueue, usedSlot]
    split <;> rfl

variable {popped : Option VirtQueueElement}

/-- A pop takes an element and counts it, finds nothing, or breaks the device. -/
theorem virtqueuePackedPop_spec (res : virtqueuePackedPop guest m = some (popped, m')) :
    (popped = none ∧ m' = m) ∨ (popped = none ∧ ∃ message, m' = virtioError m message) ∨
      ∃ elem, popped = some elem ∧ PackedTaken m m' elem.ndescs := by
  obtain ⟨empty, looked, res⟩ := bind_eq_some_iff.mp res
  split at res
  · cases res
    exact .inl ⟨rfl, rfl⟩
  rename_i notEmpty
  -- A ring without an address is always empty.
  have desc : m.vq.vring.desc ≠ 0#64 := by
    rintro none
    rw [virtioQueuePackedEmptyRcu, if_pos none] at looked
    exact notEmpty (Option.some.inj looked).symm
  split at res
  · cases res
    exact .inr (.inl ⟨rfl, _, rfl⟩)
  rename_i room
  split at res
  · cases res
    exact .inr (.inl ⟨rfl, _, rfl⟩)
  split at res
  · cases res
    exact .inr (.inl ⟨rfl, _, rfl⟩)
  split at res
  · contradiction
  · cases res
    exact .inr (.inl ⟨rfl, _, rfl⟩)
  · rename_i chain indirect id collected
    cases res
    exact .inr (.inr ⟨_, rfl, packedTaken_of_collected collected (Nat.lt_of_not_le room) desc⟩)

/-- A pop. -/
theorem PackedUse.pop (use : PackedUse u) (res : virtqueuePop guest u.m = some (popped, m')) :
    PackedUse { u with m := m', popped := popped.toList ++ u.popped } := by
  rw [virtqueuePop] at res
  split at res
  · cases res
    exact use
  rename_i works
  rw [virtioDeviceDisabled, Bool.not_eq_true, Bool.or_eq_false_iff] at works
  rw [use.packed, if_pos rfl] at res
  rcases virtqueuePackedPop_spec res with ⟨rfl, rfl⟩ | ⟨rfl, message, rfl⟩ | ⟨elem, rfl, taken⟩
  · exact use
  · exact use.broke (broke_virtioError u.m message) rfl
  have range := use.range works.2
  have accounts := use.accounts works.2
  have small := u.m.vq.vring.num_le
  have room := taken.room
  have total := accounts.inuse
  rw [virtqueueMaxSize] at small
  have inuse : m'.vq.inuse.toNat = u.m.vq.inuse.toNat + elem.ndescs.toNat := by
    have := taken.small
    rw [taken.inuse, BitVec.toNat_add]
    omega
  -- Both positions stay in the ring.
  have pos := availSlot_advanceAvail range.lastAvailIdx taken.small
  have inside := advance_lt (show (availSlot u.m.vq).idx < u.m.vq.vring.num from range.lastAvailIdx)
    elem.ndescs.toNat
  rw [← pos, ← taken.avail] at inside
  have used := congrArg Slot.idx taken.used
  have length := length_le_descriptors fun other mem => (use.sizes other mem).1
  refine ⟨taken.vdev ▸ use.packed, use.filled, ?_, ?_, fun _ => ⟨?_, ?_, ?_, ?_⟩, fun _ => ⟨?_, ?_⟩⟩
  · intro other mem
    simp only [taken.vring]
    rcases mem_cons.mp mem with rfl | mem
    · exact ⟨taken.positive, taken.small⟩
    · exact use.sizes other mem
  · intro _
    simp only [taken.vring]
    exact taken.desc
  · simp only [taken.vring]
    exact inside
  · simp only [taken.vring]
    exact lt_of_eq_of_lt used range.usedIdx
  · simp only [taken.vring, toList_some, singleton_append, length_cons]
    omega
  · have := taken.small
    simp only [taken.vring, inuse]
    omega
  · simp only [taken.vring, inuse]
    rw [taken.avail, pos, taken.used, accounts.position, advance_add]
  · simp only [inuse, toList_some, singleton_append]
    rw [descriptors_cons, total, Nat.add_comm]

theorem packedFillDesc_frame (guest m elem idx) :
    (virtqueuePackedFillDesc guest m elem idx).vq = m.vq ∧
    (virtqueuePackedFillDesc guest m elem idx).vdev = m.vdev := by
  rw [virtqueuePackedFillDesc]
  split
  · exact ⟨rfl, rfl⟩
  · exact ⟨vq_write m guest _, (sameAccounts_write m guest _).vdev⟩

/-- What publishing an element does to the accounts of a packed ring. -/
structure PackedPublished (m m' : Machine) (ndescs : BitVec 32) : Prop where
  vdev : m'.vdev = m.vdev
  vring : m'.vq.vring = m.vq.vring
  avail : availSlot m'.vq = availSlot m.vq
  used : usedSlot m'.vq = usedSlot (advanceUsed m.vq ndescs)
  inuse : m'.vq.inuse = m.vq.inuse - ndescs

/-- A push gives back as many descriptors as the element has. -/
theorem virtqueuePush_packed (guest elem len)
    (works : virtioDeviceDisabled m.vdev = false) (packed : m.vdev.ringPacked)
    (desc : m.vq.vring.desc ≠ 0#64) :
    PackedPublished m (virtqueuePush guest m elem len) elem.ndescs := by
  let vq := virtqueuePackedFill m.vq elem len 0#32
  let m₁ := virtqueuePackedFillDesc guest (m.setQueue vq) (vq.usedElems 0) 0#32
  obtain ⟨vq₁, vdev₁⟩ := packedFillDesc_frame guest (m.setQueue vq) (vq.usedElems 0) 0#32
  have remembered : (vq.usedElems 0).ndescs = elem.ndescs := rfl
  have pushed : virtqueuePush guest m elem len =
      m₁.setQueue (advanceUsed { m₁.vq with
        inuse := m₁.vq.inuse - (0#32 + elem.ndescs) } (0#32 + elem.ndescs)) := by
    simp only [virtqueuePush, virtqueueFill, works, packed, Bool.false_eq_true,
      if_false, if_true, virtqueueFlush, Machine.setQueue]
    rw [virtqueuePackedFlush, if_neg (show ¬ vq.vring.desc = 0#64 from desc)]
    rw [← remembered, ← show m₁.vq = vq from vq₁]
    rfl
  rw [pushed, BitVec.zero_add, show m₁.vq = vq from vq₁]
  obtain ⟨vring, avail, inuse⟩ :=
    advanceUsed_frame { vq with inuse := vq.inuse - elem.ndescs } elem.ndescs
  exact ⟨vdev₁, vring, avail, usedSlot_advanceUsed_congr rfl rfl, inuse⟩

variable {elem : VirtQueueElement}

theorem descriptors_erase (mem : elem ∈ elems) :
    descriptors elems = elem.ndescs.toNat + descriptors (elems.erase elem) := by
  rw [← descriptors_cons, descriptors, descriptors, ((perm_cons_erase mem).map _).sum_nat]

/-- Fewer elements are held in the same ring. -/
theorem PackedUse.giveBack (use : PackedUse u) {popped discarded}
    (vdev : m'.vdev = u.m.vdev) (vring : m'.vq.vring = u.m.vq.vring)
    (rest : ∀ elem ∈ popped, elem ∈ u.popped)
    (range : u.m.vdev.broken = false → PackedRange { u with m := m', popped })
    (accounts : u.m.vdev.broken = false → PackedAccounts { u with m := m', popped }) :
    PackedUse { u with m := m', popped, discarded } := by
  refine ⟨vdev ▸ use.packed, use.filled, ?_, fun some => ?_, fun works => ?_, fun works => ?_⟩
  · intro elem mem
    simp only [vring]
    exact use.sizes elem (rest elem mem)
  · obtain ⟨elem, mem⟩ := exists_mem_of_ne_nil popped some
    simp only [vring]
    exact use.mapped (ne_nil_of_mem (rest elem mem))
  · obtain ⟨lastAvailIdx, usedIdx, few, inuse⟩ := range (vdev ▸ works)
    exact ⟨lastAvailIdx, usedIdx, few, inuse⟩
  · obtain ⟨position, inuse⟩ := accounts (vdev ▸ works)
    exact ⟨position, inuse⟩

/-- Pushing an element to a device that is enabled keeps the accounts. -/
theorem PackedUse.push (use : PackedUse u) (guest len) {discarded}
    (enabled : u.m.vdev.disabled = false) (mem : elem ∈ u.popped) :
    PackedUse { u with
      m := virtqueuePush guest u.m elem len, popped := u.popped.erase elem, discarded } := by
  have desc := use.mapped (ne_nil_of_mem mem)
  have rest : ∀ other ∈ u.popped.erase elem, other ∈ u.popped := fun other => mem_of_mem_erase
  cases broken : u.m.vdev.broken with
  | true =>
    -- A broken device stays broken.
    have kept : Broke u.m (virtqueuePush guest u.m elem len) ∧
        (virtqueuePush guest u.m elem len).vq.vring = u.m.vq.vring := by
      simp only [virtqueuePush, virtqueueFill, virtqueueFlush, virtioDeviceDisabled,
        broken, Bool.or_true, if_true]
      exact ⟨⟨broken, rfl, rfl⟩, rfl⟩
    have never : ¬ (virtqueuePush guest u.m elem len).vdev.broken = false := by simp [kept.1.broken]
    exact (use.broke kept.1 kept.2).giveBack rfl rfl rest (fun works => absurd works never)
      (fun works => absurd works never)
  | false =>
    have published :=
      virtqueuePush_packed guest elem len (by rw [virtioDeviceDisabled, enabled, broken]; rfl)
        use.packed desc
    have range := use.range broken
    have accounts := use.accounts broken
    have size := use.sizes elem mem
    have total := accounts.inuse
    rw [descriptors_erase mem] at total
    have inuse : (virtqueuePush guest u.m elem len).vq.inuse.toNat =
        u.m.vq.inuse.toNat - elem.ndescs.toNat := by
      rw [published.inuse, BitVec.toNat_sub_of_le]
      rw [BitVec.le_def]
      omega
    have pos := usedSlot_advanceUsed range.usedIdx size.2
    have inside := advance_lt (show (usedSlot u.m.vq).idx < u.m.vq.vring.num from range.usedIdx)
        elem.ndescs.toNat
    rw [← pos, ← published.used] at inside
    refine use.giveBack published.vdev published.vring rest
      (fun _ => ⟨?_, ?_, ?_, ?_⟩) (fun _ => ⟨?_, ?_⟩)
    · simp only [published.vring]
      exact lt_of_eq_of_lt (congrArg Slot.idx published.avail) range.lastAvailIdx
    · simp only [published.vring]
      exact inside
    · simp only [published.vring]
      exact le_trans length_erase_le range.few
    · have := range.inuse
      simp only [published.vring, inuse]
      omega
    · simp only [published.vring, inuse]
      rw [published.avail, published.used, pos, accounts.position, ← advance_add]
      congr 1
      omega
    · simp only [inuse]
      omega

/-- Pushing an element to a disabled device counts one descriptor, and moves no position. -/
theorem PackedUse.push_disabled (use : PackedUse u) (works : u.m.vdev.broken = false) (guest len)
    {discarded} (disabled : u.m.vdev.disabled = true) (mem : elem ∈ u.popped) :
    ¬ PackedAccounts { u with
      m := virtqueuePush guest u.m elem len, popped := u.popped.erase elem, discarded } := by
  have pushed : virtqueuePush guest u.m elem len =
      u.m.setQueue { u.m.vq with inuse := u.m.vq.inuse - 1#32 } := by
    simp only [virtqueuePush, virtqueueFill, virtqueueFlush, virtioDeviceDisabled,
      disabled, Bool.true_or, if_true]
  have range := use.range works
  have accounts := use.accounts works
  have held := accounts.inuse
  have size := (use.sizes elem mem).1
  rw [descriptors_erase mem] at held
  have inuse : (u.m.vq.inuse - 1#32).toNat = u.m.vq.inuse.toNat - 1 :=
    toNat_inuse_sub (show 1 ≤ u.m.vq.inuse.toNat by omega)
  rintro ⟨position, -⟩
  simp only [pushed, Machine.setQueue] at position
  -- The same position would be two numbers of slots after the used one.
  have moved := position.symm.trans accounts.position
  rw [show usedSlot { u.m.vq with inuse := u.m.vq.inuse - 1#32 } = usedSlot u.m.vq from rfl, inuse,
    advance_eq_iff (show (usedSlot u.m.vq).idx < u.m.vq.vring.num from range.usedIdx)] at moved
  have bound := range.inuse
  rw [mod_eq_of_lt (by omega), mod_eq_of_lt bound] at moved
  omega

/-- Slots are taken back, and some descriptors counted as returned. -/
structure PackedReturned (vq vq' : VirtQueue) (slots count : Nat) : Prop where
  vring : vq'.vring = vq.vring
  inside : vq'.lastAvailIdx.toNat < vq.vring.num
  avail : advance vq.vring.num slots (availSlot vq') = availSlot vq
  used : usedSlot vq' = usedSlot vq
  inuse : vq'.inuse.toNat + count = vq.inuse.toNat

variable {popped : List VirtQueueElement}

/-- Returning keeps the accounts exactly if slots and descriptors are the elements'. -/
theorem PackedReturned.accounts_iff {slots count held}
    (ret : PackedReturned u.m.vq vq' slots count) (range : PackedRange u)
    (accounts : PackedAccounts u) (total : descriptors u.popped = held + descriptors popped)
    (slots_le : slots ≤ u.m.vq.vring.num) :
    PackedAccounts { u with m := u.m.setQueue vq', popped } ↔ slots = count ∧ count = held := by
  obtain ⟨vring, inside, avail, used, inuse⟩ := ret
  have insideUsed : (usedSlot u.m.vq).idx < u.m.vq.vring.num := range.usedIdx
  have pos := accounts.position
  have inuseOld := accounts.inuse
  have bound := range.inuse
  constructor
  · rintro ⟨position', inuse'⟩
    simp only [Machine.setQueue] at position' inuse'
    refine ⟨?_, by omega⟩
    -- Going on from the position that was taken back ends where the position was.
    rw [vring, used] at position'
    rw [position', ← advance_add] at avail
    have laps := (advance_eq_iff insideUsed _ _).mp (avail.trans pos)
    rw [mod_eq_of_lt bound] at laps
    by_cases short : vq'.inuse.toNat + slots < 2 * u.m.vq.vring.num
    · rw [mod_eq_of_lt short] at laps
      omega
    · rw [mod_eq_sub_mod (Nat.le_of_not_lt short), mod_eq_of_lt (by omega)] at laps
      omega
  · rintro ⟨rfl, rfl⟩
    refine ⟨?_, ?_⟩
    · simp only [Machine.setQueue]
      rw [vring, used]
      refine advance_injective inside (advance_lt insideUsed _) (avail.trans ?_)
      rw [pos, ← advance_add, inuse]
    · simp only [Machine.setQueue]
      omega

theorem PackedReturned.range {slots count} (ret : PackedReturned u.m.vq vq' slots count)
    (range : PackedRange u) (fewer : popped.length ≤ u.popped.length) :
    PackedRange { u with m := u.m.setQueue vq', popped } := by
  obtain ⟨vring, inside, _, used, inuse⟩ := ret
  have bound := range.inuse
  constructor <;> simp only [Machine.setQueue, vring]
  · exact inside
  · exact lt_of_eq_of_lt (congrArg Slot.idx used) range.usedIdx
  · exact le_trans fewer range.few
  · omega

theorem packedRewind_frame (vq num) :
    (virtqueuePackedRewind vq num).vring = vq.vring ∧
    usedSlot (virtqueuePackedRewind vq num) = usedSlot vq ∧
      (virtqueuePackedRewind vq num).inuse = vq.inuse := by
  rw [virtqueuePackedRewind]
  split <;> exact ⟨rfl, rfl, rfl⟩

theorem descriptors_append (elems others) : descriptors (elems ++ others) =
    descriptors elems + descriptors others := by
  rw [descriptors, map_append, List.sum_append]
  rfl

/-- Descriptors and elements are as many when all are single. -/
theorem descriptors_eq_length_iff (sizes : ∀ elem ∈ elems, 0 < elem.ndescs.toNat) :
    descriptors elems = elems.length ↔ ∀ elem ∈ elems, elem.ndescs = 1#32 := by
  induction elems with
  | nil => simp [descriptors]
  | cons elem rest ih =>
    have first := sizes elem mem_cons_self
    have restSizes : ∀ other ∈ rest, 0 < other.ndescs.toNat :=
      fun other mem => sizes other (mem_cons_of_mem _ mem)
    have restLength := length_le_descriptors restSizes
    have one : elem.ndescs = 1#32 ↔ elem.ndescs.toNat = 1 :=
      ⟨fun eq => by rw [eq]; rfl, fun eq => BitVec.eq_of_toNat_eq eq⟩
    rw [forall_mem_cons, ← ih restSizes, descriptors_cons, length_cons, one]
    omega

/-- The loop counts each descriptor of the chain once. -/
theorem packedChainLength_spec {num left time idx left' time' desc ndescs'}
    (counted : packedChainLength guest num left time desc idx ndescs =
      some (ndescs', left', time')) :
    ∃ more, more + left' = left ∧ ndescs' = ndescs + BitVec.ofNat 32 more := by
  induction left generalizing time idx desc ndescs with
  | zero =>
    rw [packedChainLength] at counted
    split at counted
    · contradiction
    · obtain ⟨rfl, rfl, _⟩ := Option.some.inj counted
      exact ⟨0, rfl, (BitVec.add_zero _).symm⟩
  | succ left ih =>
    rw [packedChainLength] at counted
    split at counted
    · obtain ⟨more, rest, total⟩ := ih counted
      refine ⟨more + 1, by omega, ?_⟩
      rw [total, BitVec.add_assoc, BitVec.ofNat_add, BitVec.add_comm 1#32]
    · obtain ⟨rfl, rfl, _⟩ := Option.some.inj counted
      exact ⟨0, by omega, (BitVec.add_zero _).symm⟩

theorem advanceAvail_frame (vq ndescs) :
    (advanceAvail vq ndescs).vring = vq.vring ∧ (advanceAvail vq ndescs).inuse = vq.inuse := by
  rw [advanceAvail]
  split <;> exact ⟨rfl, rfl⟩

/-- Something is there to be dropped. -/
def Droppable (guest : Guest) (time : Nat) (vq : VirtQueue) : Prop :=
  vq.inuse.toNat < vq.vring.num ∧
    isDescAvail ((guest.memory time).packedDesc .ring vq.lastAvailIdx.toNat).flags
      vq.lastAvailWrapCounter = true

/-- A dropped descriptor is taken off the number in use, where it never was. -/
theorem packedDropLoop_spec {turns left time dropped dropped'}
    (works : virtioDeviceDisabled m.vdev = false) (packed : m.vdev.ringPacked)
    (desc : m.vq.vring.desc ≠ 0#64)
    (res : packedDropLoop guest turns left time dropped m = some (dropped', m')) :
    ∃ total, total ≤ turns + left ∧ m'.vq.inuse = m.vq.inuse - BitVec.ofNat 32 total ∧
      m'.vdev = m.vdev ∧ (Droppable guest time m.vq → 0 < total) := by
  induction turns generalizing left time dropped m with
  | zero => contradiction
  | succ turns ih =>
    rw [packedDropLoop] at res
    split at res
    · rename_i full
      cases res
      exact ⟨0, Nat.zero_le _, (BitVec.sub_zero _).symm, rfl, fun droppable =>
        absurd droppable.1 (not_lt.mpr full)⟩
    simp only at res
    split at res
    · rename_i unavailable
      cases res
      refine ⟨0, Nat.zero_le _, (BitVec.sub_zero _).symm, rfl, fun droppable => ?_⟩
      rw [droppable.2] at unavailable
      contradiction
    split at res
    · contradiction
    rename_i ndescs left' time' counted
    obtain ⟨more, reads, count⟩ := packedChainLength_spec counted
    -- The element is pushed without having been counted.
    generalize pushed : virtqueuePush guest m _ _ = m₁ at res
    have published := pushed ▸ virtqueuePush_packed guest _ 0#32 works packed desc
    simp only at published
    obtain ⟨vring, inuse⟩ := advanceAvail_frame m₁.vq ndescs
    have vdev₁ : (m₁.setQueue (advanceAvail m₁.vq ndescs)).vdev = m.vdev := published.vdev
    have desc₁ : (m₁.setQueue (advanceAvail m₁.vq ndescs)).vq.vring.desc ≠ 0#64 := by
      show (advanceAvail m₁.vq ndescs).vring.desc ≠ 0#64
      rw [vring, published.vring]
      exact desc
    obtain ⟨total, total_le, inuse', vdev', _⟩ := ih (vdev₁ ▸ works) (vdev₁ ▸ packed) desc₁ res
    refine ⟨total + 1 + more, by omega, ?_, vdev'.trans published.vdev, fun _ => by omega⟩
    rw [inuse']
    show (advanceAvail m₁.vq ndescs).inuse - _ = _
    rw [inuse, published.inuse, count, BitVec.ofNat_add, BitVec.ofNat_add, BitVec.sub_sub]
    congr 1
    rw [BitVec.add_comm, BitVec.add_assoc]

theorem sameAccounts_disableNotification (guest m) :
    SameAccounts m (virtioQueueDisableNotification guest m) := by
  have off : SameAccounts m (m.setQueue { m.vq with notification := false }) :=
    ⟨rfl, rfl, rfl, rfl, rfl, rfl, rfl⟩
  simp only [virtioQueueDisableNotification]
  split
  · exact off
  · exact off.trans (sameAccounts_write _ guest _)

/-- The calls that keep the accounts of a packed ring: elements are pushed only while the device is
enabled, only single descriptors return, and nothing is dropped. -/
def Singly (u : QueueUse) : QueueCall → Prop
  | .pop _ => True
  | .push _ _ _ => u.m.vdev.disabled = false
  | .unpop => ∀ elem ∈ u.popped.head?, elem.ndescs = 1#32
  | .rewind num => ∀ elem ∈ u.popped.take num, elem.ndescs = 1#32
  | .dropAll guest _ => virtioDeviceDisabled u.m.vdev = true ∨ guest.caches = none ∨
      ¬ Droppable guest 0 u.m.vq
  | .fill _ _ _ _ => False
  | .flush _ => False
  | .setDisabled _ => True

/-- Returning an element keeps the accounts when it was a single descriptor. -/
theorem PackedUse.unpop_iff (use : PackedUse u) (works : u.m.vdev.broken = false)
    {rest} (popped : u.popped = elem :: rest) :
    PackedRange { u with m := virtqueueUnpop u.m elem, popped := rest } ∧
      (PackedAccounts { u with
        m := virtqueueUnpop u.m elem, popped := rest } ↔ elem.ndescs = 1#32) := by
  have range := use.range works
  have accounts := use.accounts works
  have total : descriptors u.popped = elem.ndescs.toNat +
    descriptors rest := by rw [popped, descriptors_cons]
  have inuse := accounts.inuse
  -- Unpopping takes back one slot, whatever the element holds.
  have packedReturned_unpop (le : elem.ndescs.toNat ≤ u.m.vq.inuse.toNat) : PackedReturned u.m.vq
      (virtqueueDetachElement (virtqueuePackedRewind u.m.vq 1#32) elem) 1 elem.ndescs.toNat := by
    have one : (1#32).toNat ≤ u.m.vq.vring.num := lt_of_le_of_lt (Nat.zero_le _) range.lastAvailIdx
    obtain ⟨inside', avail⟩ := advance_packedRewind range.lastAvailIdx one
    obtain ⟨vring, used, inuse⟩ := packedRewind_frame u.m.vq 1#32
    refine ⟨vring, inside', avail, used, ?_⟩
    show ((virtqueuePackedRewind u.m.vq 1#32).inuse - elem.ndescs).toNat +
      elem.ndescs.toNat = u.m.vq.inuse.toNat
    rw [inuse, BitVec.toNat_sub_of_le (BitVec.le_def.mpr le), Nat.sub_add_cancel le]
  have ret := packedReturned_unpop (by omega)
  rw [virtqueueUnpop, use.packed, if_pos rfl]
  refine ⟨ret.range range (by rw [popped]; exact le_succ _), ?_⟩
  rw [ret.accounts_iff range accounts total (lt_of_le_of_lt (Nat.zero_le _) range.lastAvailIdx)]
  constructor
  · rintro ⟨one, _⟩
    exact BitVec.eq_of_toNat_eq one.symm
  · intro one
    rw [one]
    exact ⟨rfl, rfl⟩

theorem virtqueueRewind_packed (packed : u.m.vdev.ringPacked) (num) : virtqueueRewind u.m num =
      if num > u.m.vq.inuse then (false, u.m)
      else (true, u.m.setQueue (virtqueuePackedRewind { u.m.vq with
        inuse := u.m.vq.inuse - num } num)) := by
  simp [virtqueueRewind, packed]

/-- Returning a number of the latest elements. -/
theorem PackedUse.rewind_iff (use : PackedUse u) (works : u.m.vdev.broken = false) {num}
    (enough : num ≤ u.popped.length) :
    PackedRange { u with
      m := (virtqueueRewind u.m (BitVec.ofNat 32 num)).2, popped := u.popped.drop num } ∧
      (PackedAccounts { u with
        m := (virtqueueRewind u.m (BitVec.ofNat 32 num)).2, popped := u.popped.drop num } ↔
        ∀ elem ∈ u.popped.take num, elem.ndescs = 1#32) := by
  have range := use.range works
  have accounts := use.accounts works
  have length := length_le_descriptors fun elem mem => (use.sizes elem mem).1
  have few := range.few
  have inuse := accounts.inuse
  have le : num ≤ u.m.vq.inuse.toNat := by omega
  have total : descriptors u.popped = descriptors (u.popped.take num) +
      descriptors (u.popped.drop num) := by
    rw [← descriptors_append, take_append_drop]
  -- Rewinding takes back as many slots as descriptors are counted, whatever the elements hold.
  have packedReturned_rewind (num_le : num ≤ u.m.vq.vring.num) :
    PackedReturned u.m.vq (virtqueuePackedRewind {
      u.m.vq with inuse := u.m.vq.inuse - BitVec.ofNat 32 num } (BitVec.ofNat 32 num)) num num := by
    have toNat : (BitVec.ofNat 32 num).toNat = num :=
      mod_eq_of_lt (lt_of_le_of_lt le u.m.vq.inuse.isLt)
    let vq₁ : VirtQueue := { u.m.vq with inuse := u.m.vq.inuse - BitVec.ofNat 32 num }
    have toNat_le : (BitVec.ofNat 32 num).toNat ≤ vq₁.vring.num := toNat.symm ▸ num_le
    obtain ⟨inside', avail⟩ := advance_packedRewind (show vq₁.lastAvailIdx.toNat < vq₁.vring.num
        from range.lastAvailIdx) toNat_le
    obtain ⟨vring, used, inuse⟩ := packedRewind_frame vq₁ (BitVec.ofNat 32 num)
    rw [toNat] at avail
    refine ⟨vring, inside', avail, used, ?_⟩
    rw [inuse]
    rw [toNat_inuse_sub le, Nat.sub_add_cancel le]
  have ret := packedReturned_rewind (by omega)
  have accepted : ¬ BitVec.ofNat 32 num > u.m.vq.inuse := by
    rw [gt_iff_lt, BitVec.lt_def, BitVec.toNat_ofNat, mod_eq_of_lt (by omega)]
    omega
  rw [virtqueueRewind_packed use.packed, if_neg accepted]
  refine ⟨ret.range range (by rw [length_drop]; exact sub_le _ _), ?_⟩
  rw [ret.accounts_iff range accounts total (by omega)]
  have taken : (u.popped.take num).length = num := by rw [length_take, Nat.min_eq_left enough]
  rw [← descriptors_eq_length_iff fun elem mem => (use.sizes elem (mem_of_mem_take mem)).1, taken]
  exact ⟨fun both => both.2.symm, fun same => ⟨rfl, same.symm⟩⟩

variable {dropped : BitVec 32}

/-- Dropping when there is nothing to be dropped. -/
theorem PackedUse.dropNothing (use : PackedUse u) {fuel}
    (nothing : Singly u (.dropAll guest fuel))
    (res : virtqueueDropAll guest fuel u.m = some (dropped, m')) : SameAccounts u.m m' := by
  rw [virtqueueDropAll] at res
  split at res
  · cases res
    exact .refl _
  rename_i works
  rw [use.packed, if_pos rfl, virtqueuePackedDropAll] at res
  split at res
  · cases res
    exact .refl _
  rename_i cached
  have same := sameAccounts_disableNotification guest u.m
  rcases nothing with disabled | none | notDroppable
  · exact absurd disabled works
  · exact absurd none cached
  -- The loop is left in its first turn.
  cases fuel with
  | zero => contradiction
  | succ fuel =>
    rw [packedDropLoop, same.inuse, same.vring, same.lastAvailIdx, same.lastAvailWrapCounter] at res
    split at res
    · cases res
      exact same
    rename_i room
    simp only at res
    split at res
    · cases res
      exact same
    · rename_i avail
      exact absurd ⟨Nat.lt_of_not_le room, by simpa using avail⟩ notDroppable

theorem virtqueueRewind_frame (packed : u.m.vdev.ringPacked) (num) :
    (virtqueueRewind u.m num).2.vdev = u.m.vdev ∧
    (virtqueueRewind u.m num).2.vq.vring = u.m.vq.vring := by
  rw [virtqueueRewind_packed packed]
  split
  · exact ⟨rfl, rfl⟩
  · exact ⟨rfl, (packedRewind_frame _ _).1⟩

/-- A step of the allowed kind keeps the accounts. -/
theorem PackedUse.step (use : PackedUse u) {call} (singly : Singly u call)
    (step : u.step call = some u') : PackedUse u' := by
  cases call with
  | pop guest =>
    obtain ⟨⟨popped, m'⟩, res, rfl⟩ := map_eq_some_iff.mp step
    exact use.pop res
  | fill guest elem len idx => exact singly.elim
  | flush guest => exact singly.elim
  | push guest elem len =>
    obtain ⟨mem, rfl⟩ := ite_some_none_eq_some.mp step
    exact use.push guest len singly mem
  | unpop =>
    obtain ⟨elem, rest, popped, rfl⟩ := QueueUse.step_unpop step
    have one : elem.ndescs = 1#32 := singly elem (by rw [popped]; rfl)
    -- Returning elements keeps the device and the ring.
    have virtqueueUnpop_frame : (virtqueueUnpop u.m elem).vdev = u.m.vdev ∧
      (virtqueueUnpop u.m elem).vq.vring = u.m.vq.vring := by
      rw [virtqueueUnpop, if_pos use.packed]
      exact ⟨rfl, (packedRewind_frame _ _).1⟩
    obtain ⟨vdev, vring⟩ := virtqueueUnpop_frame
    exact use.giveBack vdev vring (fun other mem => popped ▸ mem_cons_of_mem _ mem)
      (fun works => (use.unpop_iff works popped).1)
        (fun works => (use.unpop_iff works popped).2.mpr one)
  | rewind num =>
    obtain ⟨enough, rfl⟩ := ite_some_none_eq_some.mp step
    obtain ⟨vdev, vring⟩ := virtqueueRewind_frame use.packed (BitVec.ofNat 32 num)
    exact use.giveBack vdev vring (fun other mem => mem_of_mem_drop mem)
      (fun works => (use.rewind_iff works enough).1)
        (fun works => (use.rewind_iff works enough).2.mpr singly)
  | dropAll guest fuel =>
    obtain ⟨⟨dropped, m'⟩, res, rfl⟩ := map_eq_some_iff.mp step
    exact use.same (use.dropNothing singly res)
  | setDisabled disable =>
    cases step
    refine ⟨use.packed, use.filled, use.sizes, use.mapped, fun works => ?_, fun works => ?_⟩
    · obtain ⟨lastAvailIdx, usedIdx, few, inuse⟩ := use.range works
      exact ⟨lastAvailIdx, usedIdx, few, inuse⟩
    · obtain ⟨position, inuse⟩ := use.accounts works
      exact ⟨position, inuse⟩

/-- The calls of the accounts, with the ring set up before anything is dropped. -/
def Listed (u : QueueUse) : QueueCall → Prop
  | .fill _ _ _ _ => False
  | .flush _ => False
  -- The number of turns is bounded such that the number of descriptors does not wrap around.
  | .dropAll _ fuel => u.m.vq.vring.desc ≠ 0#64 ∧ 2 * fuel < 2 ^ 32
  | _ => True

/-- Dropping an element breaks the accounts. -/
theorem PackedUse.dropSomething (use : PackedUse u) (works : u.m.vdev.broken = false) {fuel}
    (desc : u.m.vq.vring.desc ≠ 0#64) (few : 2 * fuel < 2 ^ 32)
    (something : ¬ Singly u (.dropAll guest fuel))
    (res : virtqueueDropAll guest fuel u.m = some (dropped, m')) :
    ¬ PackedAccounts { u with m := m' } := by
  simp only [Singly, not_or, not_not, Bool.not_eq_true] at something
  obtain ⟨enabled, cached, droppable⟩ := something
  have same := sameAccounts_disableNotification guest u.m
  rw [virtqueueDropAll, if_neg (by simp [enabled]), if_pos use.packed,
    virtqueuePackedDropAll, if_neg cached] at res
  obtain ⟨total, total_le, inuse, -, some⟩ := packedDropLoop_spec (by rw [same.vdev]; exact enabled)
    (by rw [same.vdev]; exact use.packed) (by rw [same.vring]; exact desc) res
  have pos : 0 < total := by
    apply some
    rw [Droppable, same.inuse, same.vring, same.lastAvailIdx, same.lastAvailWrapCounter]
    exact droppable
  intro accounts
  -- What is in use still has to be what is held, but it has become less.
  have before := (use.accounts works).inuse
  have after := accounts.inuse
  simp only at after
  rw [inuse, same.inuse, BitVec.toNat_sub, BitVec.toNat_ofNat, mod_eq_of_lt (by omega)] at after
  omega

/--
A packed virtqueue accounts for its descriptors.

In every run in which elements are pushed only while the device is enabled, only elements with a
single
descriptor are returned and nothing is dropped, the available position is the used position advanced
by
what is in use, and as many descriptors are in use as are held.
Any other call spoils this.
-/
theorem packed_accounts_run (u : QueueUse) (use : PackedUse u) :
    (∀ calls u', Transition.Along QueueUse.step Singly u calls →
      Transition.run QueueUse.step u calls = some u' → u'.m.vdev.broken = false →
      availSlot u'.m.vq = advance u'.m.vq.vring.num u'.m.vq.inuse.toNat (usedSlot u'.m.vq) ∧
        u'.m.vq.inuse.toNat = descriptors u'.popped) ∧
    ∀ call u', u.m.vdev.broken = false → Listed u call → u.step call = some u' →
      u'.m.vdev.broken = false → (PackedAccounts u' ↔ Singly u call) := by
  constructor
  · intro calls u' along ran works
    have use' : PackedUse u' :=
      Transition.run_preserves_along (fun _ _ _ use singly stepped => use.step singly stepped)
        use along ran
    exact ⟨(use'.accounts works).position, (use'.accounts works).inuse⟩
  · intro call u' works listed stepped works'
    constructor
    · intro accounts
      cases call with
      | pop guest => trivial
      | fill guest elem len idx => exact listed.elim
      | flush guest => exact listed.elim
      | push guest elem len =>
        obtain ⟨mem, rfl⟩ := ite_some_none_eq_some.mp stepped
        by_contra disabled
        exact use.push_disabled works guest len (Bool.not_eq_false _ ▸ disabled) mem accounts
      | unpop =>
        obtain ⟨elem, rest, popped, rfl⟩ := QueueUse.step_unpop stepped
        intro other head
        rw [popped] at head
        cases head
        exact (use.unpop_iff works popped).2.mp accounts
      | rewind num =>
        obtain ⟨enough, rfl⟩ := ite_some_none_eq_some.mp stepped
        exact (use.rewind_iff works enough).2.mp accounts
      | dropAll guest fuel =>
        obtain ⟨⟨dropped, m'⟩, result, rfl⟩ := map_eq_some_iff.mp stepped
        by_contra something
        exact use.dropSomething works listed.1 listed.2 something result accounts
      | setDisabled disable => trivial
    · intro singly
      exact (use.step singly stepped).accounts works'

def packedAfterReset (vring : VRing) (eventIdx : Bool) : QueueUse :=
  let split := afterReset vring eventIdx
  { split with m := { split.m with vdev := { split.m.vdev with ringPacked := true } } }

theorem packedUse_afterReset (vring eventIdx) (some : 0 < vring.num) :
    PackedUse (packedAfterReset vring eventIdx) where
  packed := rfl
  filled := rfl
  sizes _ member := absurd member not_mem_nil
  mapped some := absurd rfl some
  range _ := ⟨some, some, Nat.zero_le _, Nat.mul_pos (by decide) some⟩
  accounts _ := ⟨rfl, rfl⟩

/-- A guest with a chain of two descriptors, and then chains of one. -/
def packedGuest : Guest where
  memory := fun _ =>
    { availIdx := 0#16
      availRing := fun _ => 0#16
      splitDesc := fun _ _ => ⟨0#64, 0#32, 0#16, 0#16⟩
      packedDesc := fun _ i =>
        ⟨BitVec.ofNat 64 (4096 * i), 512#32, BitVec.ofNat 16 i,
          0x80#16 ||| vringDescFWrite ||| if i = 0 then vringDescFNext else 0#16⟩ }
  caches := some 64
  cacheInit := fun _ len => len.toNat
  dmaMemoryMap := fun _ _ sz => some sz

/-- Two elements are popped, the first is pushed after the device was disabled for a while, and the
second is returned. -/
def packedCalls : List QueueCall :=
  [.pop packedGuest, .pop packedGuest, .setDisabled true, .setDisabled false,
    .push packedGuest ⟨0#32, 2#32, [], [⟨0#64, 512⟩, ⟨4096#64, 512⟩]⟩ 512#32, .unpop]

/-- The accounts after the sample. -/
theorem packed_accounts_run_sample :
    ∃ u', Transition.run QueueUse.step (packedAfterReset sampleVRing false) packedCalls = some u' ∧
      u'.m.vdev.broken = false ∧ u'.m.vq.lastAvailIdx = 2#16 ∧
      availSlot u'.m.vq = advance u'.m.vq.vring.num u'.m.vq.inuse.toNat (usedSlot u'.m.vq) ∧
        u'.m.vq.inuse.toNat = descriptors u'.popped := by
  have possible :
      (Transition.run QueueUse.step (packedAfterReset sampleVRing false) packedCalls).isSome := by
    decide +kernel
  obtain ⟨u', ran⟩ := isSome_iff_exists.mp possible
  have facts :
    ∀ found ∈ Transition.run QueueUse.step (packedAfterReset sampleVRing false) packedCalls,
      found.m.vdev.broken = false ∧ found.m.vq.lastAvailIdx = 2#16 := by decide +kernel
  have enabled : ∀ found ∈ Transition.run QueueUse.step (packedAfterReset sampleVRing false)
      (packedCalls.take 4), found.m.vdev.disabled = false := by decide +kernel
  have single : ∀ found ∈ Transition.run QueueUse.step
      (packedAfterReset sampleVRing false) (packedCalls.take 5),
      ∀ elem ∈ found.popped.head?, elem.ndescs = 1#32 := by decide +kernel
  obtain ⟨works, last⟩ := facts u' ran
  have along : Transition.Along QueueUse.step Singly
      (packedAfterReset sampleVRing false) packedCalls := by
    refine ⟨trivial, fun u₁ ran₁ => ⟨trivial, fun u₂ ran₂ => ⟨trivial, fun u₃ ran₃ =>
      ⟨trivial, fun u₄ ran₄ => ⟨enabled u₄ ?_,
        fun u₅ ran₅ => ⟨single u₅ ?_, fun _ _ => trivial⟩⟩⟩⟩⟩⟩
    all_goals
      exact Transition.run_cons.mpr ⟨u₁, ran₁,
        Transition.run_cons.mpr ⟨u₂, ran₂, Transition.run_cons.mpr
        ⟨u₃, ran₃, Transition.run_cons.mpr ⟨u₄, ran₄, by first
          | exact rfl
          | exact Transition.run_cons.mpr ⟨u₅, ran₅, rfl⟩⟩⟩⟩⟩
  exact ⟨u', ran, works, last,
    (packed_accounts_run _ (packedUse_afterReset sampleVRing false (by decide))).1 _ u' along
    ran works⟩

/-- Returning an element of two descriptors takes back one slot, but counts two. -/
theorem packed_accounts_lost :
    ∃ u', Transition.run QueueUse.step (packedAfterReset sampleVRing false)
      [.pop packedGuest, .unpop] = some u' ∧
      u'.m.vdev.broken = false ∧ u'.popped = [] ∧ availSlot u'.m.vq = ⟨1, true⟩ ∧
        usedSlot u'.m.vq = ⟨0, true⟩ ∧ u'.m.vq.inuse = 0#32 ∧
      availSlot u'.m.vq ≠ advance u'.m.vq.vring.num u'.m.vq.inuse.toNat (usedSlot u'.m.vq) := by
  have possible : (Transition.run QueueUse.step (packedAfterReset sampleVRing false)
          [.pop packedGuest, .unpop]).isSome := by
    decide +kernel
  obtain ⟨u', ran⟩ := isSome_iff_exists.mp possible
  have facts : ∀ found ∈ Transition.run QueueUse.step (packedAfterReset sampleVRing false)
      [.pop packedGuest, .unpop],
      found.m.vdev.broken = false ∧ found.popped = [] ∧ availSlot found.m.vq = ⟨1, true⟩ ∧
        usedSlot found.m.vq = ⟨0, true⟩ ∧ found.m.vq.inuse = 0#32 ∧
        availSlot found.m.vq ≠ advance found.m.vq.vring.num
            found.m.vq.inuse.toNat (usedSlot found.m.vq) := by
    decide +kernel
  exact ⟨u', ran, facts u' ran⟩

end Qemu.Virtio
