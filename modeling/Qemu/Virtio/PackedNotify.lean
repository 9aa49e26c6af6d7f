import Qemu.Virtio.PackedBatch
import Qemu.Virtio.SplitNotify

/-! A packed ring that asks for a notification at a position misses it when the used position laps
it. -/

namespace Qemu.Virtio

open RingPosition

/-- What the guest of a packed ring asks for. -/
structure VRingPackedDescEvent where
  offWrap : BitVec 16
  flags : BitVec 16

/-- Whether a position was stepped past. -/
def vringPackedNeedEvent (num : Nat) (wrap : Bool) (offWrap new old : BitVec 16) : Bool :=
  let off := offWrap &&& 0x7fff#16
  vringNeedEvent (if wrap != offWrap.getLsbD 15 then off - BitVec.ofNat 16 num else off) new old

def virtioPackedShouldNotify (guest : Guest) (e : VRingPackedDescEvent)
    (m : Machine) : Bool × Machine :=
  if guest.caches = none then (false, m)
  else
    let old := m.vq.signalledUsed
    let new := m.vq.usedIdx
    let v := m.vq.signalledUsedValid
    (if e.flags = 1#16 then false
      else if e.flags = 0#16 then true
      else !v || vringPackedNeedEvent m.vq.vring.num m.vq.usedWrapCounter e.offWrap new old,
      m.setQueue { m.vq with signalledUsed := new, signalledUsedValid := true })

/-- The request for a notification at a position. -/
def eventAt (slot : Slot) : VRingPackedDescEvent :=
  ⟨BitVec.ofNat 16 (slot.idx + if slot.wrap then 2 ^ 15 else 0), 2#16⟩

/-- A slot is noticed on the way from an old index to a new slot. -/
def Noticed (num old : Nat) (new slot : Slot) : Prop :=
  (new.idx + (if new.wrap = slot.wrap then 2 ^ 16 else num + 2 ^ 16) - slot.idx - 1) % 2 ^ 16 <
    (new.idx + 2 ^ 16 - old) % 2 ^ 16

/-- The 16-bit test asks whether the slot is noticed. -/
theorem vringPackedNeedEvent_eventAt {num off wrap wrap' new old}
    (small : num ≤ virtqueueMaxSize) (inside : off < num) :
    vringPackedNeedEvent num wrap (eventAt ⟨off, wrap'⟩).offWrap new old = true ↔
      Noticed num old.toNat ⟨new.toNat, wrap⟩ ⟨off, wrap'⟩ := by
  rw [virtqueueMaxSize] at small
  have request : (eventAt ⟨off, wrap'⟩).offWrap.toNat = off + if wrap' then 2 ^ 15 else 0 := by
    simp only [eventAt, BitVec.toNat_ofNat]
    split <;> omega
  have place : ((eventAt ⟨off, wrap'⟩).offWrap &&& 0x7fff#16).toNat = off := by
    rw [BitVec.toNat_and, request]
    show _ &&& (2 ^ 15 - 1) = off
    rw [Nat.and_two_pow_sub_one_eq_mod]
    split <;> omega
  have lap : (eventAt ⟨off, wrap'⟩).offWrap.getLsbD 15 = wrap' := by
    rw [← BitVec.testBit_toNat, request, Nat.testBit_eq_decide_div_mod_eq]
    cases wrap'
    · simp; omega
    · simp; omega
  simp only [Noticed, vringPackedNeedEvent, lap, vringNeedEvent, decide_eq_true_eq, BitVec.lt_def,
    BitVec.toNat_sub, bne_iff_ne, ne_eq]
  by_cases same : wrap = wrap'
  · simp only [same, not_true_eq_false, if_false, if_true, BitVec.toNat_ofNat, place]
    omega
  · simp only [same, not_false_eq_true, if_false, if_true, BitVec.toNat_sub,
      BitVec.toNat_ofNat, place]
    omega

/-- Up to two rounds take at most two subtractions. -/
theorem advance_of_le_two {num idx count wrap} (inside : idx < num) (le : count ≤ 2 * num) :
    advance num count ⟨idx, wrap⟩ = if idx + count < num then ⟨idx + count, wrap⟩
      else if idx + count < 2 * num then ⟨idx + count - num, !wrap⟩
          else ⟨idx + count - 2 * num, wrap⟩ := by
  by_cases once : count ≤ num
  · rw [advance_of_le inside once]
    split_ifs <;> first | rfl | omega
  · obtain ⟨rest, rfl⟩ := Nat.exists_eq_add_of_le (Nat.le_of_not_le once)
    rw [advance_add, advance_of_le inside (Nat.le_refl _),
      if_pos (Nat.le_add_left ..), Nat.add_sub_cancel,
      advance_of_le inside (by omega), Bool.not_not]
    split_ifs <;> first | omega | (congr 1; omega)

/-- When all the slots that a move passes are noticed. -/
theorem noticed_advance_iff {num idx descs wrap}
    (small : num ≤ virtqueueMaxSize) (inside : idx < num) :
    (∀ passed < descs, Noticed num idx (advance num descs ⟨idx, wrap⟩)
      (advance num passed ⟨idx, wrap⟩)) ↔
      descs < num ∨ 2 * num ≤ idx + descs ∧ descs < 2 * num := by
  rw [virtqueueMaxSize] at small
  constructor
  · intro all
    by_contra missed
    by_cases laps : 2 * num ≤ descs
    · -- After two laps the used position itself was stepped past.
      have here := all (descs - 2 * num) (by omega)
      rw [(@advance_eq_iff num ⟨idx, wrap⟩ inside (descs - 2 * num) descs).mpr
        (by rw [Nat.mod_eq_sub_mod laps]), Noticed, if_pos rfl] at here
      omega
    · -- Otherwise the old position is missed.
      have old := all 0 (by omega)
      rw [advance_zero, advance_of_le_two inside (by omega), if_neg (by omega),
        if_pos (by omega), Noticed, if_neg (Bool.not_ne_self wrap)] at old
      simp only at old
      omega
  · intro few passed before
    rw [advance_of_le_two inside (by omega : descs ≤ 2 * num),
      advance_of_le_two inside (by omega : passed ≤ 2 * num)]
    split_ifs
    all_goals
      simp only [Noticed, if_true, Bool.not_ne_self, Bool.self_ne_not, if_false]
      omega

variable {m m' : Machine} {descs : Nat}

/-- Batches are filled in and flushed, each with no more descriptors than the ring, and some number
altogether. -/
inductive Flushes (m : Machine) : Nat → Machine → Prop where
  | start : Flushes m 0 m
  | fill {descs : Nat} {m' : Machine} (elem : VirtQueueElement) (len idx : BitVec 32) :
    Flushes m descs m' → Flushes m descs (m'.setQueue (virtqueuePackedFill m'.vq elem len idx))
  | flush {descs : Nat} {m' : Machine} (guest : Guest) (others : Nat) :
    Flushes m descs m' → others < m.vq.vring.num →
      loopDescs m'.vq.usedElems 0 (others + 1) ≤ m.vq.vring.num →
    Flushes m (descs + loopDescs m'.vq.usedElems 0 (others + 1))
      (virtqueuePackedFlush guest m' (BitVec.ofNat 32 (others + 1)))

/-- Flushing moves the used position on, and leaves the signalled one. -/
theorem Flushes.used (flushes : Flushes m descs m') (desc : m.vq.vring.desc ≠ 0#64)
    (inside : m.vq.usedIdx.toNat < m.vq.vring.num) :
    m'.vq.vring = m.vq.vring ∧ usedSlot m'.vq = advance m.vq.vring.num descs (usedSlot m.vq) ∧
      m'.vq.signalledUsed = m.vq.signalledUsed ∧
          m'.vq.signalledUsedValid = m.vq.signalledUsedValid := by
  induction flushes with
  | start => exact ⟨rfl, rfl, rfl, rfl⟩
  | fill elem len idx flushes ih => exact ih
  | flush guest others flushes few le ih =>
    rename_i descs m'
    obtain ⟨vring, used, signalled, valid⟩ := ih
    have inside' : m'.vq.usedIdx.toNat < m'.vq.vring.num := by
      rw [vring]
      exact (congrArg Slot.idx used).trans_lt (@advance_lt _ (usedSlot m.vq) inside descs)
    have size := m.vq.vring.num_le
    rw [virtqueueMaxSize] at size
    rw [virtqueuePackedFlush_eq (vring ▸ desc) inside' (vring ▸ few)]
    generalize counted : BitVec.ofNat 32 (loopDescs m'.vq.usedElems 0 (others + 1)) = ndescs
    have toNat : ndescs.toNat = loopDescs m'.vq.usedElems 0 (others + 1) := by
      rw [← counted, BitVec.toNat_ofNat]
      omega
    have moved := @usedSlot_advanceUsed { m'.vq with
      inuse := m'.vq.inuse - ndescs } ndescs inside' (by rw [vring]; omega)
    refine ⟨(advanceUsed_frame _ _).1.trans vring, ?_, ?_⟩
    · rw [advance_add, ← used, ← vring, ← toNat]
      exact moved
    · simp only [Machine.setQueue, advanceUsed]
      split <;> exact ⟨signalled, valid⟩

/-- Whether every position that was stepped past would have been noticed. -/
def AllNoticed (guest : Guest) (before m : Machine) (descs : Nat) : Prop :=
  ∀ passed < descs, (virtioPackedShouldNotify guest
    (eventAt (advance before.vq.vring.num passed (usedSlot before.vq))) m).1 = true

/-- The guest is notified of every position that was stepped past since the last decision, exactly
if the used position has gone on by less than a lap, or by less than two and past the end of the
second. -/
theorem packed_notification_iff (guest guest' : Guest) (e : VRingPackedDescEvent)
    (m m' : Machine) (descs : Nat)
    (caches : guest.caches ≠ none) (caches' : guest'.caches ≠ none) (desc : m.vq.vring.desc ≠ 0#64)
    (inside : m.vq.usedIdx.toNat < m.vq.vring.num)
    (flushes : Flushes (virtioPackedShouldNotify guest e m).2 descs m') :
    AllNoticed guest' m m' descs ↔
      descs < m.vq.vring.num ∨ 2 * m.vq.vring.num ≤ m.vq.usedIdx.toNat + descs ∧
          descs < 2 * m.vq.vring.num := by
  rw [virtioPackedShouldNotify, if_neg caches] at flushes
  obtain ⟨vring, used, signalled, valid⟩ := flushes.used desc inside
  have used' : usedSlot m'.vq = advance m.vq.vring.num descs ⟨m.vq.usedIdx.toNat,
    m.vq.usedWrapCounter⟩ := used
  rw [← @noticed_advance_iff _ _ descs m.vq.usedWrapCounter m.vq.vring.num_le inside, ← used']
  refine forall₂_congr fun passed _ => ?_
  have within := @advance_lt m.vq.vring.num (usedSlot m.vq) inside passed
  rw [virtioPackedShouldNotify, if_neg caches']
  simp only [valid, signalled, vring, Machine.setQueue]
  exact vringPackedNeedEvent_eventAt m.vq.vring.num_le within

/-- One element with some descriptors was flushed since the last decision. -/
def flushedOnce (ndescs : BitVec 32) : Machine :=
  let m :=
    (virtioPackedShouldNotify packedGuest ⟨0#16, 0#16⟩ (packedAfterReset sampleVRing true).m).2
  virtqueuePackedFlush packedGuest
    (m.setQueue (virtqueuePackedFill m.vq ⟨0#32, ndescs, [], []⟩ 0#32 0#32)) 1#32

/-- Three descriptors in a ring of four are less than a lap. -/
theorem packed_notification_iff_sample :
    AllNoticed packedGuest (packedAfterReset sampleVRing true).m (flushedOnce 3#32) 3 :=
  (packed_notification_iff packedGuest packedGuest ⟨0#16, 0#16⟩
    (packedAfterReset sampleVRing true).m (flushedOnce 3#32) 3
    nofun nofun (by decide) (by decide) (by
      refine .flush packedGuest 0 (.fill ⟨0#32, 3#32, [], []⟩ 0#32 0#32 .start)
        ?_ ?_ <;> decide)).mpr (.inl (by decide))

/-- Four descriptors are a lap, after which no position is noticed. -/
theorem packed_notification_lost : ¬ ∃ passed < 4, (virtioPackedShouldNotify packedGuest
    (eventAt (advance 4 passed (usedSlot (packedAfterReset sampleVRing true).m.vq)))
    (flushedOnce 4#32)).1 = true := by
  decide +kernel

end Qemu.Virtio
