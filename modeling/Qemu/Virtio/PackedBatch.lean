import Qemu.Virtio.PackedAccounting

/-! Where a batch of used elements lands in a packed ring: slot after slot, however long the chains
are. -/

namespace Qemu.Virtio

open RingPosition BitVec List

variable {guest : Guest} {m : Machine}

/-- The used descriptor of an element in a slot, its flags after the rest of it. -/
def usedDesc (slot : Slot) (elem : UsedElem) : List RingWrite :=
  [.packedData slot.idx (elem.index.setWidth 16) elem.len,
    .packedFlags slot.idx (if slot.wrap then 0x8080#16 else 0#16)]

theorem virtqueuePackedFillDesc_eq (desc : m.vq.vring.desc ≠ 0#64)
    (inside : m.vq.usedIdx.toNat < m.vq.vring.num) (elem) {idx} (le : idx.toNat ≤ m.vq.vring.num) :
    virtqueuePackedFillDesc guest m elem idx =
      m.write guest (usedDesc (advance m.vq.vring.num idx.toNat (usedSlot m.vq)) elem) := by
  rw [usedSlot, ← slot_advance m.vq.vring.num_le inside le, virtqueuePackedFillDesc, if_neg desc]
  by_cases wraps : (m.vq.usedIdx + idx.setWidth 16).toNat ≥ m.vq.vring.num
  · simp only [wraps, if_true, decide_true, Bool.xor_true, usedDesc]
  · simp only [wraps, if_false, decide_false, Bool.xor_false, usedDesc]

theorem write_write (first second) : (m.write guest first).write guest second =
    m.write guest (first ++ second) := by
  simp only [Machine.write]
  split <;> simp

def loopWrites (num : Nat) (slot : Slot) (usedElems : Nat → UsedElem)
    (i left : Nat) : List RingWrite :=
  (range' i left).flatMap fun k => usedDesc (advance num k slot) (usedElems k)

def loopDescs (usedElems : Nat → UsedElem) (i left : Nat) : Nat :=
  ((range' i left).map fun k => (usedElems k).ndescs.toNat).sum

/-- The loop writes the elements behind the first at offsets one apart. -/
theorem packedFlushLoop_eq {vq} (desc : vq.vring.desc ≠ 0#64)
    (inside : vq.usedIdx.toNat < vq.vring.num)
    {left i} (le : i + left ≤ vq.vring.num) (ndescs) (same : m.vq = vq) :
    packedFlushLoop guest left (BitVec.ofNat 32 i) ndescs m =
      (ndescs + BitVec.ofNat 32 (loopDescs vq.usedElems i left),
      m.write guest (loopWrites vq.vring.num (usedSlot vq) vq.usedElems i left)) := by
  induction left generalizing i ndescs m with
  | zero => simp [packedFlushLoop, loopDescs, loopWrites, Machine.write]
  | succ left ih =>
    have size := vq.vring.num_le
    rw [virtqueueMaxSize] at size
    have toNat : (BitVec.ofNat 32 i).toNat = i := by
      rw [BitVec.toNat_ofNat]
      omega
    subst same
    rw [packedFlushLoop, virtqueuePackedFillDesc_eq desc inside _ (by omega),
      toNat, ← BitVec.ofNat_add, ih (by omega) _ (vq_write m guest _), write_write]
    simp only [loopDescs, loopWrites, List.range'_succ, List.map_cons, List.sum_cons,
      flatMap_cons, BitVec.ofNat_add, BitVec.ofNat_toNat, BitVec.setWidth_eq, add_assoc]

/-- A flush writes the first element last and moves the used index. -/
theorem virtqueuePackedFlush_eq (desc : m.vq.vring.desc ≠ 0#64)
    (inside : m.vq.usedIdx.toNat < m.vq.vring.num) {others} (le : others < m.vq.vring.num) :
    virtqueuePackedFlush guest m (BitVec.ofNat 32 (others + 1)) =
      let ndescs := BitVec.ofNat 32 (loopDescs m.vq.usedElems 0 (others + 1))
      (m.write guest (loopWrites m.vq.vring.num (usedSlot m.vq) m.vq.usedElems 1 others ++
        usedDesc (usedSlot m.vq) (m.vq.usedElems 0))).setQueue
        (advanceUsed { m.vq with inuse := m.vq.inuse - ndescs } ndescs) := by
  have size := m.vq.vring.num_le
  rw [virtqueueMaxSize] at size
  have toNat : (BitVec.ofNat 32 (others + 1)).toNat = others + 1 := by
    rw [BitVec.toNat_ofNat]
    omega
  have total : 0#32 + BitVec.ofNat 32 (loopDescs m.vq.usedElems 1 others) +
    (m.vq.usedElems 0).ndescs = BitVec.ofNat 32 (loopDescs m.vq.usedElems 0 (others + 1)) := by
    rw [loopDescs, loopDescs, List.range'_succ, List.map_cons, List.sum_cons,
      BitVec.ofNat_add, BitVec.ofNat_toNat, BitVec.setWidth_eq, BitVec.zero_add, BitVec.add_comm]
  have first :=
    fun writes => @virtqueuePackedFillDesc_eq guest (m.write guest writes) (by rwa [vq_write])
    (by rwa [vq_write]) (m.vq.usedElems 0) 0#32 (Nat.zero_le _)
  simp only [virtqueuePackedFlush, if_neg desc, toNat,
    packedFlushLoop_eq desc inside (by omega : 1 + others ≤ _) _ rfl,
    Nat.add_sub_cancel, vq_write, first, total, write_write]
  rfl

variable {num : Nat} {slot : Slot} {batch : List (VirtQueueElement × BitVec 32)}

/-- Fill in a batch from an index on, with the lengths written. -/
def fillFrom (guest : Guest) : Nat → List (VirtQueueElement × BitVec 32) → Machine → Machine
  | _, [], m => m
  | i, (elem, len) :: rest, m =>
      fillFrom guest (i + 1) rest (virtqueueFill guest m elem len (BitVec.ofNat 32 i))

/-- The slot some descriptors after another, with its wrap counter. -/
def landing (num : Nat) (slot : Slot) (descs : Nat) : Slot :=
  ⟨(slot.idx + descs) % num, slot.wrap ^^ decide (slot.idx + descs ≥ num)⟩

/-- What is written when every element takes up some slots after those before it. -/
def landFrom (num : Nat) (slot : Slot) (slots : VirtQueueElement → Nat) :
    Nat → List (VirtQueueElement × BitVec 32) → List RingWrite
  | _, [] => []
  | pos, (elem, len) :: rest =>
    usedDesc (landing num slot pos) ⟨elem.index, len, elem.ndescs⟩ ++
      landFrom num slot slots (pos + slots elem) rest

theorem landing_eq_advance (inside : slot.idx < num) {descs} (le : descs ≤ num) :
    landing num slot descs = advance num descs slot := by
  obtain ⟨idx, wrap⟩ := slot
  replace inside : idx < num := inside
  rw [advance_of_le inside le, landing]
  split
  · rename_i crosses
    simp only [crosses, decide_true, Bool.xor_true,
      Nat.mod_eq_sub_mod crosses, Slot.mk.injEq, and_true]
    exact Nat.mod_eq_of_lt (by omega)
  · rename_i crosses
    simp only [crosses, decide_false, Bool.xor_false, Slot.mk.injEq, and_true]
    exact Nat.mod_eq_of_lt (by omega)

theorem landing_inj (inside : slot.idx < num) {pos pos'} (le : pos ≤ num) (le' : pos' ≤ num) :
    landing num slot pos = landing num slot pos' ↔ pos = pos' := by
  rw [landing_eq_advance inside le, landing_eq_advance inside le', advance_eq_iff inside,
    Nat.mod_eq_of_lt (by omega), Nat.mod_eq_of_lt (by omega)]

theorem usedDesc_append_inj {slot' elem rest rest'} :
    usedDesc slot elem ++ rest = usedDesc slot' elem ++ rest' ↔ slot = slot' ∧ rest = rest' := by
  obtain ⟨idx, wrap⟩ := slot
  obtain ⟨idx', wrap'⟩ := slot'
  cases wrap <;> cases wrap' <;> simp [usedDesc]

/-- Elements land where they belong when all but the last are single. -/
theorem landFrom_eq_iff (inside : slot.idx < num)
    (sizes : ∀ entry ∈ batch, 0 < entry.1.ndescs.toNat) {i pos}
    (le : i ≤ pos) (room : pos + descriptors (batch.map Prod.fst) ≤ num) :
    landFrom num slot (fun _ => 1) i batch =
      landFrom num slot (fun elem => elem.ndescs.toNat) pos batch ↔
      batch = [] ∨ i = pos ∧ ∀ entry ∈ batch.dropLast, entry.1.ndescs = 1#32 := by
  induction batch generalizing i pos with
  | nil => simp [landFrom]
  | cons entry rest ih =>
    obtain ⟨elem, len⟩ := entry
    have some : 0 < elem.ndescs.toNat := sizes _ mem_cons_self
    have room' : pos + (elem.ndescs.toNat + descriptors (rest.map Prod.fst)) ≤ num := room
    rw [landFrom, landFrom, usedDesc_append_inj, landing_inj inside (by omega) (by omega),
      ih (fun entry mem => sizes entry (mem_cons_of_mem _ mem)) (by omega) (by omega)]
    cases rest with
    | nil => simp
    | cons next rest =>
      have one : i = pos → (i + 1 = pos + elem.ndescs.toNat ↔ elem.ndescs = 1#32) := by
        rintro rfl
        rw [← toNat_inj]
        show _ ↔ elem.ndescs.toNat = 1
        omega
      simp only [reduceCtorEq, false_or, dropLast_cons_cons, forall_mem_cons]
      exact and_congr_right fun same => and_congr_left fun _ => one same

theorem virtqueueFlush_packed (works : virtioDeviceDisabled m.vdev = false)
    (packed : m.vdev.ringPacked)
    (count) : virtqueueFlush guest m count = virtqueuePackedFlush guest m count := by
  simp [virtqueueFlush, works, packed]

/-- Filling in remembers the elements, which the loop writes slot after slot. -/
theorem fillFrom_eq (works : virtioDeviceDisabled m.vdev = false) (packed : m.vdev.ringPacked)
    (inside : slot.idx < num) (small : num ≤ virtqueueMaxSize) {i} (few : i + batch.length ≤ num) :
    ∃ usedElems, fillFrom guest i batch m = m.setQueue { m.vq with usedElems } ∧
      (∀ j < i, usedElems j = m.vq.usedElems j) ∧
      loopWrites num slot usedElems i batch.length = landFrom num slot (fun _ => 1) i batch := by
  induction batch generalizing i m with
  | nil => exact ⟨m.vq.usedElems, rfl, fun _ _ => rfl, rfl⟩
  | cons entry rest ih =>
    obtain ⟨elem, len⟩ := entry
    rw [length_cons] at few
    have toNat : (BitVec.ofNat 32 i).toNat = i := by
      rw [virtqueueMaxSize] at small
      rw [BitVec.toNat_ofNat]
      omega
    have fill : virtqueueFill guest m elem len (BitVec.ofNat 32 i) =
        m.setQueue (virtqueuePackedFill m.vq elem len (BitVec.ofNat 32 i)) := by
      simp [virtqueueFill, works, packed]
    obtain ⟨usedElems, filled, old, written⟩ :=
      @ih (m.setQueue (virtqueuePackedFill m.vq elem len (BitVec.ofNat 32 i))) works
      packed (i + 1) (by omega)
    simp only [Machine.setQueue, virtqueuePackedFill, toNat] at old
    refine ⟨usedElems, by rw [fillFrom, fill, filled]; rfl, fun j before => ?_, ?_⟩
    · rw [old j (by omega), if_neg (by omega)]
    · rw [loopWrites] at written ⊢
      rw [length_cons, List.range'_succ, flatMap_cons, written,
        old i (by omega), if_pos rfl, landFrom, landing_eq_advance inside (by omega)]

/-- Every element of a batch lands after the descriptors of those before it, the first written last,
exactly if all but the last have a single descriptor. -/
theorem packed_batch_lands_iff (guest : Guest) (m : Machine) (first : VirtQueueElement × BitVec 32)
    (rest : List (VirtQueueElement × BitVec 32)) (caches : guest.caches.isSome)
    (works : virtioDeviceDisabled m.vdev = false) (packed : m.vdev.ringPacked = true)
    (desc : m.vq.vring.desc ≠ 0#64) (inside : m.vq.usedIdx.toNat < m.vq.vring.num)
    (sizes : ∀ entry ∈ first :: rest, 0 < entry.1.ndescs.toNat)
    (room : descriptors ((first :: rest).map Prod.fst) ≤ m.vq.vring.num) :
    (virtqueueFlush guest (fillFrom guest 0 (first :: rest) m)
      (BitVec.ofNat 32 (first :: rest).length)).written =
        m.written ++ (landFrom m.vq.vring.num (usedSlot m.vq) (fun elem => elem.ndescs.toNat)
          first.1.ndescs.toNat rest ++
          landFrom m.vq.vring.num (usedSlot m.vq) (fun elem => elem.ndescs.toNat) 0 [first]) ↔
      ∀ entry ∈ (first :: rest).dropLast, entry.1.ndescs = 1#32 := by
  have length := length_le_descriptors (forall_mem_map.mpr sizes)
  rw [length_map, length_cons] at length
  obtain ⟨usedElems, filled, -, written⟩ :=
    @fillFrom_eq guest m m.vq.vring.num (usedSlot m.vq) (first :: rest) works packed
    inside m.vq.vring.num_le 0 (by rw [length_cons]; omega)
  rw [loopWrites, length_cons, List.range'_succ, flatMap_cons, landFrom] at written
  obtain ⟨head, others⟩ := append_inj written rfl
  have flushed :=
    (@virtqueueFlush_packed guest (m.setQueue { m.vq with usedElems }) works packed _).trans
    (@virtqueuePackedFlush_eq guest (m.setQueue { m.vq with usedElems }) desc inside rest.length
      (show rest.length < m.vq.vring.num by omega))
  -- The flush writes the others first and the head last.
  have log : (virtqueueFlush guest (fillFrom guest 0 (first :: rest) m)
    (BitVec.ofNat 32 (first :: rest).length)).written =
      m.written ++ (landFrom m.vq.vring.num (usedSlot m.vq) (fun _ => 1) 1 rest ++
        usedDesc (landing m.vq.vring.num (usedSlot m.vq) 0)
            ⟨first.1.index, first.2, first.1.ndescs⟩) := by
    rw [filled, length_cons, flushed, ← head, ← others]
    simp only [Machine.setQueue, Machine.write, caches]
    rfl
  rw [log, List.append_right_inj, landFrom, landFrom, List.append_nil, List.append_left_inj,
    landFrom_eq_iff inside (fun entry member => sizes entry (mem_cons_of_mem _ member))
      (sizes _ mem_cons_self) room]
  cases rest with
  | nil => simp
  | cons next rest =>
    rw [dropLast_cons_cons, forall_mem_cons, ← toNat_inj]
    simp [eq_comm]

/-- A batch of an element with one descriptor and of one with two. -/
theorem packed_batch_lands_iff_sample :
    (virtqueueFlush packedGuest (fillFrom packedGuest 0 [(⟨5#32, 1#32, [], []⟩, 8#32),
      (⟨6#32, 2#32, [], []⟩, 9#32)] (packedAfterReset sampleVRing false).m) 2#32).written =
      [.packedData 1 6#16 9#32, .packedFlags 1 0x8080#16, .packedData 0 5#16 8#32,
        .packedFlags 0 0x8080#16] :=
  (packed_batch_lands_iff packedGuest (packedAfterReset sampleVRing false).m
    (⟨5#32, 1#32, [], []⟩, 8#32)
    [(⟨6#32, 2#32, [], []⟩, 9#32)] rfl rfl rfl (by decide) (by decide) (by decide)
    (by decide)).mpr (by decide)

/-- The second element lands on the second descriptor of the first. -/
theorem packed_batch_lands_wrong :
    (virtqueueFlush packedGuest (fillFrom packedGuest 0 [(⟨5#32, 2#32, [], []⟩, 8#32),
      (⟨6#32, 1#32, [], []⟩, 9#32)] (packedAfterReset sampleVRing false).m) 2#32).written =
      [.packedData 1 6#16 9#32, .packedFlags 1 0x8080#16, .packedData 0 5#16 8#32,
        .packedFlags 0 0x8080#16] ∧
    landing 4 (usedSlot (packedAfterReset sampleVRing false).m.vq) 2 = ⟨2, true⟩ := by
  decide +kernel

end Qemu.Virtio
