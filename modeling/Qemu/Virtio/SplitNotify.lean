import Qemu.Virtio.SplitAccounting

/-! A split ring gets its notification when the index asked for is stepped past. -/

namespace Qemu.Virtio

open BitVec

/-- An index was stepped past from an old one to a new one. -/
def vringNeedEvent (eventIdx newIdx old : BitVec 16) : Bool :=
  newIdx - eventIdx - 1#16 < newIdx - old

/-- Decide by the index that the guest asks for, and record the used one, or by the flags of the
ring. -/
def notifyByIndex (guest : Guest) (availFlags : BitVec 16) (m : Machine) : Bool × Machine :=
  if !m.vdev.eventIdx then (!hasFlag availFlags 1#16, m)
  else
    let v := m.vq.signalledUsedValid
    let old := m.vq.signalledUsed
    let new := m.vq.usedIdx
    (!v || vringNeedEvent (vringAvailRing guest 1 m.vq.vring.num) new old,
      m.setQueue { m.vq with signalledUsedValid := true, signalledUsed := new })

def virtioSplitShouldNotify (guest : Guest) (notifyOnEmpty : Bool) (availFlags : BitVec 16)
    (m : Machine) : Bool × Machine :=
  let (empty, m) := if notifyOnEmpty && m.vq.inuse == 0#32 then virtioQueueSplitEmpty
    guest 0 m else (false, m)
  if empty then (true, m) else notifyByIndex guest availFlags m

/-- What happens to the used index of a split ring. -/
inductive UsedCall where
  | flush (guest : Guest) (count : BitVec 32)
  | shouldNotify (guest : Guest) (notifyOnEmpty : Bool) (availFlags : BitVec 16)

/-- A queue, with the indices stepped past since a notification was last considered. -/
structure Notified where
  m : Machine
  passed : List (BitVec 16)

/-- The indices from an old one up to a new one. -/
def steppedPast (old new : BitVec 16) : List (BitVec 16) :=
  (List.range (new - old).toNat).map fun step => old + BitVec.ofNat 16 step

def Notified.step (s : Notified) : UsedCall → Notified
  | .flush guest count =>
    let m := virtqueueSplitFlush guest s.m count
    ⟨m, s.passed ++ steppedPast s.m.vq.usedIdx m.vq.usedIdx⟩
  | .shouldNotify guest notifyOnEmpty availFlags =>
      ⟨(virtioSplitShouldNotify guest notifyOnEmpty availFlags s.m).2, []⟩

/-- A batch has no more elements than the ring. -/
def UsedCall.Fits (num : Nat) : UsedCall → Prop
  | .flush _ count => count.toNat ≤ num
  | .shouldNotify .. => True

/-- The signalled index is less than half of all away, and what was passed between. -/
def Reached (used signalled : BitVec 16) (passed : List (BitVec 16)) : Prop :=
  (used - signalled).toNat < 2 ^ 15 ∧ ∀ idx ∈ passed, vringNeedEvent idx used signalled = true

/-- What a flush passes is noticed while the signalled index is near. -/
theorem Reached.flush {used signalled count passed} (reached : Reached used signalled passed)
    (small : count.toNat ≤ virtqueueMaxSize)
    (valid : ¬ (used + count - signalled).toInt < (used + count - used).toNat) :
    Reached (used + count) signalled (passed ++ steppedPast used (used + count)) := by
  rw [virtqueueMaxSize] at small
  have moved : used + count - used = count := by rw [BitVec.add_comm, BitVec.add_sub_cancel]
  obtain ⟨near, between⟩ := reached
  have distance : (used + count - signalled).toNat = (used - signalled).toNat + count.toNat := by
    rw [BitVec.toNat_sub, BitVec.toNat_sub, BitVec.toNat_add] at *
    omega
  rw [moved, BitVec.toInt_eq_toNat_cond, distance] at valid
  refine ⟨by omega, fun idx mem => ?_⟩
  rw [vringNeedEvent, decide_eq_true_eq, lt_def, distance]
  rcases List.mem_append.mp mem with mem | mem
  · have before := between idx mem
    rw [vringNeedEvent, decide_eq_true_eq, lt_def] at before
    simp only [BitVec.toNat_sub, BitVec.toNat_add] at *
    omega
  · obtain ⟨step, before, rfl⟩ := List.mem_map.mp mem
    rw [moved, List.mem_range] at before
    simp only [BitVec.toNat_sub, BitVec.toNat_add, toNat_ofNat] at *
    omega

/-- As long as the signalled index is valid, it tells what was passed. -/
structure Notified.Sound (num : Nat) (s : Notified) : Prop where
  num : s.m.vq.vring.num = num
  eventIdx : s.m.vdev.eventIdx = true
  reached : s.m.vq.signalledUsedValid = true → Reached s.m.vq.usedIdx s.m.vq.signalledUsed s.passed

variable {s : Notified} {num : Nat}

/-- A flush keeps track of all that was passed. -/
theorem Notified.Sound.flush (sound : s.Sound num) (small : num ≤ virtqueueMaxSize) (guest) {count}
    (fits : count.toNat ≤ num) : (s.step (.flush guest count)).Sound num := by
  obtain ⟨m, passed⟩ := s
  simp only [Notified.step]
  by_cases unused : m.vq.vring.used = 0#64
  · have nothing : steppedPast m.vq.usedIdx m.vq.usedIdx = [] := by simp [steppedPast]
    rw [virtqueueSplitFlush, if_pos unused, nothing, List.append_nil]
    exact sound
  · have same := sameAccounts_write m guest [.usedIdx (m.vq.usedIdx + count.setWidth 16)]
    have width : (count.setWidth 16).toNat = count.toNat := by
      rw [virtqueueMaxSize] at small
      rw [BitVec.toNat_setWidth]
      omega
    rw [virtqueueSplitFlush, if_neg unused]
    refine ⟨sound.num, same.vdev ▸ sound.eventIdx, fun valid => ?_⟩
    obtain ⟨_, invalid⟩ | ⟨near, valid⟩ := ite_eq_iff.mp valid
    · contradiction
    · exact (sound.reached valid).flush (width ▸ fits.trans small) near

theorem queueEmpty_shadow (guest m) :
    ∃ idx, (virtioQueueSplitEmpty guest 0 m).2 = m.setQueue { m.vq with
      shadowAvailIdx := idx } := by
  simp only [virtioQueueSplitEmpty, virtioQueueEmptyRcu, vringAvailIdx]
  split_ifs <;> exact ⟨_, rfl⟩

/-- The guest is notified if its event index was passed. -/
theorem Notified.Sound.notifyByIndex (sound : s.Sound num) (guest availFlags) :
    (⟨(notifyByIndex guest availFlags s.m).2, []⟩ : Notified).Sound num ∧
      (vringAvailRing guest 1 num ∈ s.passed → (notifyByIndex guest availFlags s.m).1) := by
  rw [Virtio.notifyByIndex, sound.eventIdx]
  refine ⟨⟨sound.num, sound.eventIdx, fun _ => ⟨?_, nofun⟩⟩, fun passed => ?_⟩
  · show (s.m.vq.usedIdx - s.m.vq.usedIdx).toNat < 2 ^ 15
    rw [sub_self]
    decide
  · simp only [sound.num, Bool.not_true, Bool.false_eq_true, if_false]
    cases valid : s.m.vq.signalledUsedValid with
    | false => rfl
    | true => exact (sound.reached valid).2 _ passed

/-- A decision to notify misses no event index that was passed. -/
theorem Notified.Sound.shouldNotify (sound : s.Sound num) (guest notifyOnEmpty availFlags) :
    (s.step (.shouldNotify guest notifyOnEmpty availFlags)).Sound num ∧
      (vringAvailRing guest 1 num ∈ s.passed →
          (virtioSplitShouldNotify guest notifyOnEmpty availFlags s.m).1) := by
  simp only [Notified.step, virtioSplitShouldNotify]
  split
  · obtain ⟨idx, looked⟩ := queueEmpty_shadow guest s.m
    have same : Notified.Sound num ⟨(virtioQueueSplitEmpty guest 0 s.m).2, s.passed⟩ := by
      rw [looked]
      exact ⟨sound.num, sound.eventIdx, sound.reached⟩
    split
    · exact ⟨⟨same.num, same.eventIdx, fun valid => ⟨(same.reached valid).1, nofun⟩⟩, fun _ => rfl⟩
    · exact same.notifyByIndex guest availFlags
  · exact sound.notifyByIndex guest availFlags

/-- A guest of a split ring is notified when the index that it asked for was stepped past, after
every run of batches and decisions from a queue that was reset. -/
theorem split_notification_not_lost (m : Machine) (eventIdx : m.vdev.eventIdx = true)
    (reset : m.vq.signalledUsedValid = false) (calls : List UsedCall)
    (fit : ∀ call ∈ calls, call.Fits m.vq.vring.num)
    (guest : Guest) (notifyOnEmpty : Bool) (availFlags : BitVec 16) :
    let s := calls.foldl Notified.step ⟨m, []⟩
    vringAvailRing guest 1 m.vq.vring.num ∈ s.passed →
      (virtioSplitShouldNotify guest notifyOnEmpty availFlags s.m).1 = true := by
  have start : Notified.Sound m.vq.vring.num ⟨m, []⟩ :=
    ⟨rfl, eventIdx, fun valid => by rw [reset] at valid; contradiction⟩
  have sound := List.foldlRecOn calls Notified.step start fun s sound call member => by
    cases call with
    | flush guest count => exact sound.flush m.vq.vring.num_le guest (fit _ member)
    | shouldNotify guest notifyOnEmpty availFlags =>
        exact (sound.shouldNotify guest notifyOnEmpty availFlags).1
  exact (sound.shouldNotify guest notifyOnEmpty availFlags).2

/-- Two batches of three elements, with a decision in between. -/
def notifyCalls : List UsedCall :=
  [.flush sampleGuest 3#32, .shouldNotify sampleGuest true 0#16, .flush sampleGuest 3#32]

/-- The guest asked for the second element of the second batch. -/
theorem split_notification_not_lost_sample : (virtioSplitShouldNotify sampleGuest true 0#16
    (notifyCalls.foldl Notified.step ⟨(afterReset sampleVRing true).m, []⟩).m).1 = true :=
  split_notification_not_lost (afterReset sampleVRing true).m rfl rfl notifyCalls
    (by simp [notifyCalls, UsedCall.Fits, afterReset, sampleVRing]) sampleGuest
    true 0#16 (by decide +kernel)

end Qemu.Virtio
