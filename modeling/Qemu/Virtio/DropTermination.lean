import Qemu.Virtio.PackedAccounting

/-! Dropping a packed ring ends unless its descriptors are chained in a circle. -/

namespace Qemu.Virtio

open RingPosition BitVec Nat

variable {guest : Guest} {num left idx : Nat} {desc : VRingPackedDesc}
    (time : Nat) (ndescs : BitVec 32)

def nextSlot (num idx : Nat) : Nat := if idx + 1 = num then 0 else idx + 1

theorem nextSlot_lt (inside : idx < num) : nextSlot num idx < num := by
  rw [nextSlot]
  split <;> omega

theorem readNextDesc_ring : virtqueuePackedReadNextDesc guest time .ring num num false desc idx =
    if hasFlag desc.flags vringDescFNext then
      .more ((guest.memory time).packedDesc .ring (nextSlot num idx)) (nextSlot num idx)
    else .done := by
  rw [nextSlot, virtqueuePackedReadNextDesc]
  cases hasFlag desc.flags vringDescFNext
  · rfl
  · by_cases last : idx + 1 = num
    · simp [last]
    · simp [last]

theorem packedChainLength_done (next : hasFlag desc.flags vringDescFNext = false) :
    packedChainLength guest num left time desc idx ndescs = some (ndescs, left, time) := by
  unfold packedChainLength
  simp [readNextDesc_ring, next]

/-- A chain ends at the latest at a descriptor that is never chained to another, some slots away. -/
theorem packedChainLength_ends {last away} (inRing : last < num)
    (ends : ∀ time, hasFlag ((guest.memory time).packedDesc .ring last).flags
      vringDescFNext = false)
    (pos : idx + away = last ∨ idx + away = last + num) (inside : idx < num)
    (here : idx = last → hasFlag desc.flags vringDescFNext = false) (enough : away ≤ left) :
    ∃ ndescs' left' time', packedChainLength guest num left time desc idx ndescs =
      some (ndescs', left', time') ∧ left ≤ left' + away := by
  induction away generalizing left time idx desc ndescs with
  | zero => exact ⟨_, _, _, packedChainLength_done _ _ (here (by omega)), le_refl _⟩
  | succ away ih =>
    cases next : hasFlag desc.flags vringDescFNext with
    | false => exact ⟨_, _, _, packedChainLength_done _ _ next, Nat.le_add_right ..⟩
    | true =>
      obtain ⟨left, rfl⟩ := Nat.exists_eq_succ_of_ne_zero (Nat.ne_zero_of_lt enough)
      rw [packedChainLength, readNextDesc_ring, next, if_pos rfl]
      have slot : nextSlot num idx + away = last ∨ nextSlot num idx + away = last + num := by
        rw [nextSlot]
        split <;> omega
      obtain ⟨ndescs', left', time', counted, reads⟩ :=
        ih (time + 1) (ndescs + 1#32) slot (nextSlot_lt inside)
        (fun there => there ▸ ends time) (le_of_succ_le_succ enough)
      exact ⟨ndescs', left', time', counted, by omega⟩

theorem packedChainLength_circle
    (circle : ∀ time, ∀ i < num, hasFlag ((guest.memory time).packedDesc .ring i).flags
      vringDescFNext) (inside : idx < num) (next : hasFlag desc.flags vringDescFNext) :
    packedChainLength guest num left time desc idx ndescs = none := by
  induction left generalizing time idx desc ndescs with
  | zero => rw [packedChainLength, readNextDesc_ring, next, if_pos rfl]
  | succ left ih =>
    rw [packedChainLength, readNextDesc_ring, next, if_pos rfl]
    exact ih _ _ (nextSlot_lt inside) (circle time _ (nextSlot_lt inside))

variable {m : Machine}

/-- Pushing back a dropped element steps the used index past it. -/
theorem virtqueuePush_dropped (packed : m.vdev.ringPacked) (desc : m.vq.vring.desc ≠ 0#64) (index)
    {ndescs} (some : 1 ≤ ndescs.toNat) :
    let m' := virtqueuePush guest m ⟨index, ndescs, [], []⟩ 0#32
    m'.vdev = m.vdev ∧ m'.vq.vring = m.vq.vring ∧ availSlot m'.vq = availSlot m.vq ∧
      ∃ gone, 1 ≤ gone.toNat ∧ gone.toNat ≤ ndescs.toNat ∧ m'.vq.inuse = m.vq.inuse - gone := by
  cases works : virtioDeviceDisabled m.vdev with
  | true =>
    simp only [virtqueuePush, virtqueueFill, virtqueueFlush, works, if_true]
    exact ⟨rfl, rfl, rfl, 1#32, le_refl _, some, rfl⟩
  | false =>
    have published := virtqueuePush_packed guest ⟨index, ndescs, [], []⟩ 0#32 works packed desc
    exact ⟨published.vdev, published.vring, published.avail, ndescs, some,
      le_refl _, published.inuse⟩

/-- Dropping ends when a descriptor is never chained to another one. -/
theorem packedDropLoop_returns {last needed turns} (time dropped) (inRing : last < m.vq.vring.num)
    (ends : ∀ time, hasFlag ((guest.memory time).packedDesc .ring last).flags
      vringDescFNext = false) (packed : m.vdev.ringPacked) (desc : m.vq.vring.desc ≠ 0#64)
    (inside : m.vq.lastAvailIdx.toNat < m.vq.vring.num)
    (enough : m.vq.inuse.toNat + 1 < needed ∨ m.vq.vring.num ≤ m.vq.inuse.toNat ∧ 0 < needed)
    (le : needed ≤ turns) (reads : needed * m.vq.vring.num ≤ left) :
    ∃ result, packedDropLoop guest turns left time dropped m = some result := by
  induction needed generalizing turns left time dropped m with
  | zero => omega
  | succ needed ih =>
    obtain ⟨turns, rfl⟩ := Nat.exists_eq_succ_of_ne_zero (Nat.ne_zero_of_lt le)
    rw [packedDropLoop]
    split
    · exact ⟨_, rfl⟩
    · simp only
      split
      · exact ⟨_, rfl⟩
      · rw [Nat.succ_mul] at reads
        obtain ⟨away, small, pos⟩ : ∃ away < m.vq.vring.num, m.vq.lastAvailIdx.toNat + away = last ∨
            m.vq.lastAvailIdx.toNat + away = last + m.vq.vring.num := by
          by_cases before : m.vq.lastAvailIdx.toNat ≤ last
          · exact ⟨last - m.vq.lastAvailIdx.toNat, by omega, .inl (by omega)⟩
          · exact ⟨last + m.vq.vring.num - m.vq.lastAvailIdx.toNat, by omega, .inr (by omega)⟩
        obtain ⟨ndescs, left', time', counted, few⟩ :=
          packedChainLength_ends (time + 1) 1#32 inRing ends pos
          inside (fun here => here ▸ ends time) (by omega : away ≤ left)
        obtain ⟨more, rest, rfl⟩ := packedChainLength_spec counted
        have size := m.vq.vring.num_le
        rw [virtqueueMaxSize] at size
        generalize total : 1#32 + BitVec.ofNat 32 more = ndescs at counted
        have length : ndescs.toNat = 1 + more := by
          rw [← total, toNat_add, toNat_ofNat, toNat_ofNat]
          omega
        rw [counted]
        simp only
        generalize pushed : virtqueuePush guest m _ _ = m₁
        obtain ⟨vdev, vring, avail, gone, one, most, inuse⟩ :=
          pushed ▸ virtqueuePush_dropped packed desc _ (length ▸ le_add_right ..)
        obtain ⟨vring', inuse'⟩ := advanceAvail_frame m₁.vq ndescs
        have inside₁ : m₁.vq.lastAvailIdx.toNat < m₁.vq.vring.num := by
          rw [vring]
          exact (congrArg Slot.idx avail).trans_lt inside
        have moved := availSlot_advanceAvail inside₁ (by rw [vring]; omega : ndescs.toNat ≤ _)
        have inside' := (congrArg Slot.idx moved).trans_lt (advance_lt inside₁ _)
        -- What is in use becomes less, or wraps around to more than the ring has slots.
        have fewer : (m.vq.inuse - gone).toNat < m.vq.inuse.toNat ∨
            m.vq.vring.num ≤ (m.vq.inuse - gone).toNat := by
          rw [toNat_sub]
          omega
        refine ih _ _ ?_ ?_ ?_ ?_ ?_ (le_of_succ_le_succ le) ?_
        all_goals simp only [Machine.setQueue, vring', inuse', vring, vdev, inuse]
        · exact inRing
        · exact packed
        · exact desc
        · rw [← vring]
          exact inside'
        · omega
        · omega

/-- A ring of chained descriptors without an end never lets the drop end. -/
theorem virtqueuePackedDropAll_circle (caches : guest.caches ≠ none)
    (droppable : Droppable guest 0 m.vq) (inside : m.vq.lastAvailIdx.toNat < m.vq.vring.num)
    (circle : ∀ time, ∀ i < m.vq.vring.num,
      hasFlag ((guest.memory time).packedDesc .ring i).flags vringDescFNext)
    (fuel) : virtqueuePackedDropAll guest fuel m = none := by
  have same := sameAccounts_disableNotification guest m
  rw [virtqueuePackedDropAll, if_neg caches]
  cases fuel with
  | zero => rfl
  | succ fuel =>
    rw [packedDropLoop, same.inuse, same.vring, same.lastAvailIdx, same.lastAvailWrapCounter,
      if_neg (not_le.mpr droppable.1)]
    simp only [droppable.2]
    rw [packedChainLength_circle _ _ circle inside (circle _ _ inside)]
    rfl

/-- The ring is as the guest left it but for used descriptors written. -/
def KeepsRing (guest : Guest) (num : Nat) (initial : Nat → VRingPackedDesc) : Prop :=
  ∀ time, ∀ i < num, let desc := (guest.memory time).packedDesc .ring i
    desc = initial i ∨ desc.flags = 0x8080#16 ∨ desc.flags = 0#16

/-- Something is there to drop, and all descriptors are chained to the next. -/
def Circular (vq : VirtQueue) (initial : Nat → VRingPackedDesc) : Prop :=
  vq.inuse.toNat < vq.vring.num ∧
    isDescAvail (initial vq.lastAvailIdx.toNat).flags vq.lastAvailWrapCounter = true ∧
    ∀ i < vq.vring.num, hasFlag (initial i).flags vringDescFNext = true

/-- Dropping a packed ring returns, unless its descriptors are a circle. -/
theorem virtqueuePackedDropAll_returns (guest : Guest) (m : Machine)
    (initial : Nat → VRingPackedDesc)
    (packed : m.vdev.ringPacked = true) (desc : guest.caches ≠ none → m.vq.vring.desc ≠ 0#64)
    (inside : m.vq.lastAvailIdx.toNat < m.vq.vring.num) :
    (KeepsRing guest m.vq.vring.num initial → guest.caches = none ∨ ¬ Circular m.vq initial →
      ∃ fuel result, virtqueuePackedDropAll guest fuel m = some result) ∧
    ((∀ time, ∀ i < m.vq.vring.num, (guest.memory time).packedDesc .ring i = initial i) →
      guest.caches ≠ none →
      Circular m.vq initial → ∀ fuel, virtqueuePackedDropAll guest fuel m = none) := by
  have same := sameAccounts_disableNotification guest m
  constructor
  · intro keeps fine
    by_cases caches : guest.caches = none
    · exact ⟨0, _, by rw [virtqueuePackedDropAll, if_pos caches]⟩
    simp only [virtqueuePackedDropAll, if_neg caches]
    by_cases circle : ∀ i < m.vq.vring.num, hasFlag (initial i).flags vringDescFNext = true
    · -- The loop is left in its first turn.
      refine ⟨1, ?_⟩
      rw [packedDropLoop, same.inuse, same.vring, same.lastAvailIdx, same.lastAvailWrapCounter]
      split
      · exact ⟨_, rfl⟩
      · rename_i room
        have unavailable := fun available =>
          fine.resolve_left caches ⟨Nat.lt_of_not_le room, available, circle⟩
        simp only
        rw [if_pos]
        · exact ⟨_, rfl⟩
        · rcases keeps 0 _ inside with eq | eq | eq
          · rw [eq, Bool.not_eq_true']
            exact Bool.eq_false_of_not_eq_true unavailable
          · rw [eq, isDescAvail]
            simp
          · rw [eq, isDescAvail]
            simp
    · simp only [not_forall, Bool.not_eq_true] at circle
      obtain ⟨last, inRing, ends⟩ := circle
      have never : ∀ time, hasFlag ((guest.memory time).packedDesc .ring last).flags
          vringDescFNext = false := by
        intro time
        rcases keeps time last inRing with eq | eq | eq <;> rw [eq]
        exacts [ends, rfl, rfl]
      refine ⟨_, packedDropLoop_returns 0 0#32 ?_ never ?_ ?_ ?_ ?_
        (Nat.le_mul_of_pos_right (m.vq.vring.num + 2) m.vq.vring.num.succ_pos) ?_⟩
      all_goals simp only [same.vring, same.vdev, same.inuse, same.lastAvailIdx]
      · exact inRing
      · exact packed
      · exact desc caches
      · exact inside
      · omega
      · exact mul_le_mul_left _ (le_succ _)
  · rintro still caches ⟨room, available, circle⟩
    exact virtqueuePackedDropAll_circle caches ⟨room, still 0 _ inside ▸ available⟩ inside
      fun time i inRing => still time i inRing ▸ circle i inRing

/-- Dropping a chain of two descriptors and the chains of one after it. -/
theorem virtqueuePackedDropAll_returns_sample :
    ∃ fuel result, virtqueuePackedDropAll packedGuest fuel (packedAfterReset sampleVRing false).m =
      some result :=
  (virtqueuePackedDropAll_returns packedGuest (packedAfterReset sampleVRing false).m
    ((packedGuest.memory 0).packedDesc .ring) rfl nofun (by decide)).1 (fun _ _ _ => .inl rfl)
      (.inr fun circular => absurd (circular.2.2 1 (by decide)) (by decide))

/-- A ring in which every descriptor is chained to the next one. -/
theorem virtqueuePackedDropAll_endless : ¬ ∃ fuel, virtqueuePackedDropAll { packedGuest with
    memory := fun _ => { packedGuest.memory 0 with
      packedDesc := fun _ _ => ⟨0#64, 512#32, 0#16, 0x81#16⟩ } }
    fuel (packedAfterReset sampleVRing false).m ≠ none :=
  not_exists_not.mpr (virtqueuePackedDropAll_circle nofun ⟨by decide, rfl⟩ (by decide) fun _ _ _ =>
    (by decide : hasFlag 0x81#16 vringDescFNext = true))

end Qemu.Virtio
