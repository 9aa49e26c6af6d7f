import Qemu.Virtio.Descriptors

/-! A virtqueue and its operations, for split and for packed rings. -/

namespace Qemu.Virtio

/-- The rings of a queue, with the bound that `virtio_add_queue` and `virtio_queue_set_num` check.
-/
structure VRing where
  num : Nat
  desc : BitVec 64
  avail : BitVec 64
  used : BitVec 64
  num_le : num ≤ virtqueueMaxSize

/-- An element that was popped. -/
structure VirtQueueElement where
  index : BitVec 32
  ndescs : BitVec 32
  out : List Sg
  ins : List Sg
deriving DecidableEq

/-- A filled-in element, as a packed queue remembers it until the flush. -/
structure UsedElem where
  index : BitVec 32
  len : BitVec 32
  ndescs : BitVec 32

structure VirtQueue where
  vring : VRing
  usedElems : Nat → UsedElem
  lastAvailIdx : BitVec 16
  lastAvailWrapCounter : Bool
  shadowAvailIdx : BitVec 16
  shadowAvailWrapCounter : Bool
  usedIdx : BitVec 16
  usedWrapCounter : Bool
  signalledUsed : BitVec 16
  signalledUsedValid : Bool
  notification : Bool
  inuse : BitVec 32

/-- The state and the features of the device that its queues depend on. -/
structure VirtIODevice where
  broken : Bool
  disabled : Bool
  ringPacked : Bool
  eventIdx : Bool
  /-- The errors that were reported. -/
  errors : List String

/-- What the device writes to the rings. -/
inductive RingWrite where
  | usedElem (i : Nat) (id len : BitVec 32)
  | usedIdx (idx : BitVec 16)
  | usedFlags (noNotify : Bool)
  | availEvent (idx : BitVec 16)
  | packedData (i : Nat) (id : BitVec 16) (len : BitVec 32)
  | packedFlags (i : Nat) (flags : BitVec 16)
  | packedEvent (offWrap : Option (BitVec 16)) (flags : BitVec 16)
deriving DecidableEq

/-- A queue of a device, and everything that was written to its rings. -/
structure Machine where
  vdev : VirtIODevice
  vq : VirtQueue
  written : List RingWrite

def Machine.setQueue (m : Machine) (vq : VirtQueue) : Machine := { m with vq }

/-- Write to a ring, if the region caches are initialised. -/
def Machine.write (m : Machine) (guest : Guest) (writes : List RingWrite) : Machine :=
  if guest.caches.isSome then { m with written := m.written ++ writes } else m

/-- Report an error and mark the device broken. -/
def virtioError (m : Machine) (message : String) : Machine :=
  { m with vdev := { m.vdev with broken := true, errors := m.vdev.errors ++ [message] } }

def virtioDeviceDisabled (vdev : VirtIODevice) : Bool := vdev.disabled || vdev.broken

/-- Read the available index and remember it. -/
def vringAvailIdx (guest : Guest) (time : Nat) (m : Machine) : BitVec 16 × Machine :=
  if guest.caches.isSome then
    ((guest.memory time).availIdx, m.setQueue { m.vq with
      shadowAvailIdx := (guest.memory time).availIdx })
  else (0#16, m)

def vringAvailRing (guest : Guest) (time i : Nat) : BitVec 16 :=
  if guest.caches.isSome then (guest.memory time).availRing i else 0#16

def vringUsedIdxSet (guest : Guest) (m : Machine) (val : BitVec 16) : Machine :=
  (m.write guest [.usedIdx val]).setQueue { m.vq with usedIdx := val }

/-- Ask for a notification at an index. -/
def vringSetAvailEvent (guest : Guest) (m : Machine) (val : BitVec 16) : Machine :=
  if m.vq.notification then m.write guest [.availEvent val] else m

/-- Whether the guest has made nothing available. -/
def virtioQueueEmptyRcu (guest : Guest) (time : Nat) (m : Machine) : Bool × Machine :=
  if virtioDeviceDisabled m.vdev then (true, m)
  else if m.vq.vring.avail = 0#64 then (true, m)
  else if m.vq.shadowAvailIdx ≠ m.vq.lastAvailIdx then (false, m)
  else
    let (idx, m) := vringAvailIdx guest time m
    (idx == m.vq.lastAvailIdx, m)

/-- The same test outside of a pop. -/
def virtioQueueSplitEmpty (guest : Guest) (time : Nat) (m : Machine) : Bool × Machine :=
  virtioQueueEmptyRcu guest time m

/-- The head of the chain at an index, or an error. -/
def virtqueueGetHead (guest : Guest) (time : Nat) (vring : VRing)
    (idx : BitVec 16) : Except String Nat :=
  let head := (vringAvailRing guest time (idx.toNat % vring.num)).toNat
  if head ≥ vring.num then .error s!"Guest says index {head} is available" else .ok head

/-- The part of `virtqueue_split_pop` after the head of the chain is known. -/
def splitPopChain (guest : Guest) (m : Machine) (head : Nat) :
    Option (Option VirtQueueElement × Machine) :=
  let m := if m.vdev.eventIdx then vringSetAvailEvent guest m m.vq.lastAvailIdx else m
  match guest.caches with
  | none => some (none, virtioError m "Region caches not initialized")
  | some descLen =>
    if descLen < m.vq.vring.num * sizeofDesc
      then some (none, virtioError m "Cannot map descriptor ring")
    else match collectSplit guest 2 m.vq.vring.num head with
      | .aborts => none
      | .error message _ => some (none, virtioError m message)
      | .ok chain =>
        some (some ⟨BitVec.ofNat 32 head, 1#32, chain.out, chain.ins⟩,
          m.setQueue { m.vq with inuse := m.vq.inuse + 1#32 })

/--
Pop an element of a split ring, `virtqueue_split_pop`.

The result is `none` if an assertion fails.
-/
def virtqueueSplitPop (guest : Guest) (m : Machine) : Option (Option VirtQueueElement × Machine) :=
  let (empty, m) := virtioQueueEmptyRcu guest 0 m
  if empty then some (none, m)
  else if m.vq.inuse.toNat ≥ m.vq.vring.num
    then some (none, virtioError m "Virtqueue size exceeded")
  else
    -- The index is passed on before it is incremented, but counts as taken from here on.
    let idx := m.vq.lastAvailIdx
    let m := m.setQueue { m.vq with lastAvailIdx := idx + 1#16 }
    match virtqueueGetHead guest 1 m.vq.vring idx with
    | .error message => some (none, virtioError m message)
    | .ok head => splitPopChain guest m head

/-- Write an element to the used ring. -/
def virtqueueSplitFill (guest : Guest) (m : Machine) (elem : VirtQueueElement)
    (len idx : BitVec 32) : Machine :=
  if m.vq.vring.used = 0#64 then m
  else m.write guest [.usedElem ((idx + m.vq.usedIdx.setWidth 32).toNat % m.vq.vring.num)
    elem.index len]

/-- Publish a number of elements. -/
def virtqueueSplitFlush (guest : Guest) (m : Machine) (count : BitVec 32) : Machine :=
  if m.vq.vring.used = 0#64 then m
  else
    let old := m.vq.usedIdx
    let new := old + count.setWidth 16
    let m := vringUsedIdxSet guest m new
    m.setQueue { m.vq with
      inuse := m.vq.inuse - count
      -- Both sides are promoted to `int`, the left one with its sign.
      signalledUsedValid :=
        if (new - m.vq.signalledUsed).toInt < (new - old).toNat then false
          else m.vq.signalledUsedValid }

/-- Take back a number of indices. -/
def virtqueueSplitRewind (vq : VirtQueue) (num : BitVec 32) : VirtQueue :=
  { vq with lastAvailIdx := vq.lastAvailIdx - num.setWidth 16 }

/-- Whether a descriptor has been made available. -/
def isDescAvail (flags : BitVec 16) (wrapCounter : Bool) : Bool :=
  let avail := flags.getLsbD 7
  let used := flags.getLsbD 15
  (avail != used) && (avail == wrapCounter)

/-- Whether the guest has made nothing available, or none if the cached read fails its assertion. -/
def virtioQueuePackedEmptyRcu (guest : Guest) (time : Nat) (vq : VirtQueue) : Option Bool :=
  if vq.vring.desc = 0#64 then some true
  else match guest.caches with
    | none => some true
    | some descLen =>
      -- The flags are read through the cache, whatever its length.
      if descLen < (vq.lastAvailIdx.toNat + 1) * sizeofDesc then none
      else some !isDescAvail ((guest.memory time).packedDesc .ring vq.lastAvailIdx.toNat).flags
        vq.lastAvailWrapCounter

/-- The available position moves on by a number of descriptors. -/
def advanceAvail (vq : VirtQueue) (ndescs : BitVec 32) : VirtQueue :=
  let idx := vq.lastAvailIdx + ndescs.setWidth 16
  if idx.toNat ≥ vq.vring.num then
    { vq with
      lastAvailIdx := idx - BitVec.ofNat 16 vq.vring.num,
      lastAvailWrapCounter := !vq.lastAvailWrapCounter }
  else { vq with lastAvailIdx := idx }

/-- Take the element at the available position, or none if an assertion fails on the way. -/
def virtqueuePackedPop (guest : Guest) (m : Machine) : Option (Option VirtQueueElement × Machine) :=
  do
  if ← virtioQueuePackedEmptyRcu guest 0 m.vq then some (none, m)
  else if m.vq.inuse.toNat ≥ m.vq.vring.num
    then some (none, virtioError m "Virtqueue size exceeded")
  else match guest.caches with
    | none => some (none, virtioError m "Region caches not initialized")
    | some descLen =>
      if descLen < m.vq.vring.num * sizeofDesc
        then some (none, virtioError m "Cannot map descriptor ring")
      else match collectPacked guest descLen 1 m.vq.vring.num m.vq.lastAvailIdx.toNat with
        | .aborts => none
        | .error message _ => some (none, virtioError m message)
        | .ok (chain, indirect, id) =>
          let ndescs := if indirect then 1#32 else BitVec.ofNat 32 chain.entries
          let vq := advanceAvail { m.vq with inuse := m.vq.inuse + ndescs } ndescs
          some (some ⟨id.setWidth 32, ndescs, chain.out, chain.ins⟩, m.setQueue { vq with
              shadowAvailIdx := vq.lastAvailIdx
              shadowAvailWrapCounter := vq.lastAvailWrapCounter })

/-- Remember an element until it is flushed. -/
def virtqueuePackedFill (vq : VirtQueue) (elem : VirtQueueElement)
    (len idx : BitVec 32) : VirtQueue :=
  { vq with usedElems := fun i => if i = idx.toNat
    then ⟨elem.index, len, elem.ndescs⟩ else vq.usedElems i }

/-- Write the used descriptor of an element. -/
def virtqueuePackedFillDesc (guest : Guest) (m : Machine) (elem : UsedElem)
    (idx : BitVec 32) : Machine :=
  if m.vq.vring.desc = 0#64 then m else
    let head := m.vq.usedIdx + idx.setWidth 16
    let wraps := head.toNat ≥ m.vq.vring.num
    let position := if wraps then head - BitVec.ofNat 16 m.vq.vring.num else head
    let wrapCounter := m.vq.usedWrapCounter ^^ decide wraps
    let flags := if wrapCounter then 0x8080#16 else 0#16
    m.write guest [.packedData position.toNat (elem.index.setWidth 16) elem.len,
      .packedFlags position.toNat flags]

/-- The used position moves on by a number of descriptors. -/
def advanceUsed (vq : VirtQueue) (ndescs : BitVec 32) : VirtQueue :=
  let idx := vq.usedIdx + ndescs.setWidth 16
  if idx.toNat ≥ vq.vring.num then
    { vq with
      usedIdx := idx - BitVec.ofNat 16 vq.vring.num, usedWrapCounter := !vq.usedWrapCounter }
  else { vq with usedIdx := idx }

/-- The loop of `virtqueue_packed_flush` over the elements from one on, with those that are left. -/
def packedFlushLoop (guest : Guest) : Nat → BitVec 32 → BitVec 32 → Machine → BitVec 32 × Machine
  | 0, _, ndescs, m => (ndescs, m)
  | left + 1, i, ndescs, m =>
    packedFlushLoop guest left (i + 1#32) (ndescs + (m.vq.usedElems i.toNat).ndescs)
      (virtqueuePackedFillDesc guest m (m.vq.usedElems i.toNat) i)

/-- Publish a number of elements. -/
def virtqueuePackedFlush (guest : Guest) (m : Machine) (count : BitVec 32) : Machine :=
  if m.vq.vring.desc = 0#64 then m else
    let (ndescs, m) := packedFlushLoop guest (count.toNat - 1) 1#32 0#32 m
    -- The first element comes last, so that the guest sees all of them at once.
    let m := virtqueuePackedFillDesc guest m (m.vq.usedElems 0) 0#32
    let ndescs := ndescs + (m.vq.usedElems 0).ndescs
    m.setQueue (advanceUsed { m.vq with inuse := m.vq.inuse - ndescs } ndescs)

/-- Take back a number of slots. -/
def virtqueuePackedRewind (vq : VirtQueue) (num : BitVec 32) : VirtQueue :=
  if vq.lastAvailIdx.toNat < num.toNat then
    { vq with
      lastAvailIdx := BitVec.ofNat 16 vq.vring.num + vq.lastAvailIdx - num.setWidth 16
      lastAvailWrapCounter := !vq.lastAvailWrapCounter }
  else { vq with lastAvailIdx := vq.lastAvailIdx - num.setWidth 16 }

def virtqueuePop (guest : Guest) (m : Machine) : Option (Option VirtQueueElement × Machine) :=
  if virtioDeviceDisabled m.vdev then some (none, m)
  else if m.vdev.ringPacked then virtqueuePackedPop guest m
  else virtqueueSplitPop guest m

def virtqueueFill (guest : Guest) (m : Machine) (elem : VirtQueueElement)
    (len idx : BitVec 32) : Machine :=
  if virtioDeviceDisabled m.vdev then m
  else if m.vdev.ringPacked then m.setQueue (virtqueuePackedFill m.vq elem len idx)
  else virtqueueSplitFill guest m elem len idx

/-- Publish a number of elements. -/
def virtqueueFlush (guest : Guest) (m : Machine) (count : BitVec 32) : Machine :=
  if virtioDeviceDisabled m.vdev then m.setQueue { m.vq with inuse := m.vq.inuse - count }
  else if m.vdev.ringPacked then virtqueuePackedFlush guest m count
  else virtqueueSplitFlush guest m count

/-- Fill in and publish an element. -/
def virtqueuePush (guest : Guest) (m : Machine) (elem : VirtQueueElement)
    (len : BitVec 32) : Machine :=
  virtqueueFlush guest (virtqueueFill guest m elem len 0#32) 1#32

/-- Forget an element. -/
def virtqueueDetachElement (vq : VirtQueue) (elem : VirtQueueElement) : VirtQueue :=
  { vq with inuse := vq.inuse - elem.ndescs }

/-- Pretend that the most recent element was not popped. -/
def virtqueueUnpop (m : Machine) (elem : VirtQueueElement) : Machine :=
  m.setQueue (virtqueueDetachElement
    (if m.vdev.ringPacked then virtqueuePackedRewind m.vq 1#32
      else virtqueueSplitRewind m.vq 1#32) elem)

/-- Pretend that a number of elements were not popped. -/
def virtqueueRewind (m : Machine) (num : BitVec 32) : Bool × Machine :=
  if num > m.vq.inuse then (false, m)
  else
    let vq := { m.vq with inuse := m.vq.inuse - num }
    (true, m.setQueue (if m.vdev.ringPacked then virtqueuePackedRewind vq num
      else virtqueueSplitRewind vq num))

/-- A turn of `virtqueue_split_drop_all`, and whether the loop goes on. -/
def splitDropOne (guest : Guest) (time : Nat) (m : Machine) : Bool × Machine :=
  let (empty, m) := virtioQueueSplitEmpty guest time m
  if empty || decide (m.vq.inuse.toNat ≥ m.vq.vring.num) then (false, m)
  else match virtqueueGetHead guest (time + 1) m.vq.vring m.vq.lastAvailIdx with
    | .error message => (false, virtioError m message)
    | .ok head =>
      let m := m.setQueue { m.vq with
        inuse := m.vq.inuse + 1#32, lastAvailIdx := m.vq.lastAvailIdx + 1#16 }
      let m := if m.vdev.eventIdx then vringSetAvailEvent guest m m.vq.lastAvailIdx else m
      (true, virtqueuePush guest m ⟨BitVec.ofNat 32 head, 0#32, [], []⟩ 0#32)

/-- `none` if the guest keeps the loop going for a number of turns by making more available. -/
def virtqueueSplitDropAll (guest : Guest) : Nat → Nat → BitVec 32 → Machine →
    Option (BitVec 32 × Machine)
  | 0, _, _, _ => none
  | turns + 1, time, dropped, m =>
    let (goesOn, m) := splitDropOne guest time m
    if goesOn then virtqueueSplitDropAll guest turns (time + 2) (dropped + 1#32) m
      else some (dropped, m)

/-- `virtio_queue_packed_set_notification` without the flag to enable. -/
def virtioQueueDisableNotification (guest : Guest) (m : Machine) : Machine :=
  let m := m.setQueue { m.vq with notification := false }
  if m.vq.vring.desc = 0#64 then m else m.write guest [.packedEvent none 1#16]

/-- The loop that counts a chain, with the descriptors that may still be read. -/
def packedChainLength (guest : Guest) (num : Nat) : Nat → Nat → VRingPackedDesc → Nat → BitVec 32 →
    Option (BitVec 32 × Nat × Nat)
  | left, time, desc, idx, ndescs =>
    match virtqueuePackedReadNextDesc guest time .ring num num false desc idx with
    | .more desc idx =>
      match left with
      | 0 => none
      | left + 1 => packedChainLength guest num left (time + 1) desc idx (ndescs + 1#32)
    | _ => some (ndescs, left, time)

/-- The loop of `virtqueue_packed_drop_all` over a ring that its cache covers, so that no cached
read fails; with the descriptors that may still be read: `none` if the guest keeps a loop going. -/
def packedDropLoop (guest : Guest) : Nat → Nat → Nat → BitVec 32 → Machine →
    Option (BitVec 32 × Machine)
  | 0, _, _, _, _ => none
  | turns + 1, left, time, dropped, m =>
    if m.vq.inuse.toNat ≥ m.vq.vring.num then some (dropped, m)
    else
      let desc := (guest.memory time).packedDesc .ring m.vq.lastAvailIdx.toNat
      if !isDescAvail desc.flags m.vq.lastAvailWrapCounter then some (dropped, m)
      else match packedChainLength guest m.vq.vring.num left (time + 1) desc
          m.vq.lastAvailIdx.toNat 1#32 with
        | none => none
        | some (ndescs, left, time) =>
          let m := virtqueuePush guest m ⟨desc.id.setWidth 32, ndescs, [], []⟩ 0#32
          packedDropLoop guest turns left time (dropped + 1#32)
            (m.setQueue (advanceAvail m.vq ndescs))

def virtqueuePackedDropAll (guest : Guest) (fuel : Nat) (m : Machine) :
    Option (BitVec 32 × Machine) :=
  if guest.caches = none then some (0#32, m)
  else packedDropLoop guest fuel fuel 0 0#32 (virtioQueueDisableNotification guest m)

def virtqueueDropAll (guest : Guest) (fuel : Nat) (m : Machine) : Option (BitVec 32 × Machine) :=
  if virtioDeviceDisabled m.vdev then some (0#32, m)
  else if m.vdev.ringPacked then virtqueuePackedDropAll guest fuel m
  else virtqueueSplitDropAll guest fuel 0 0#32 m

/-- Disable a device for a while, as `virtio_set_disabled` does where `use_disabled_flag` is on. -/
def virtioSetDisabled (m : Machine) (disable : Bool) : Machine :=
  { m with vdev := { m.vdev with disabled := disable } }

/-- What a device does with its queue, and the guest that it meets. The guest enables and disables
the device by the bus master bit of its PCI command register. -/
inductive QueueCall where
  | pop (guest : Guest)
  | fill (guest : Guest) (elem : VirtQueueElement) (len idx : BitVec 32)
  | flush (guest : Guest)
  | push (guest : Guest) (elem : VirtQueueElement) (len : BitVec 32)
  | unpop
  | rewind (num : Nat)
  | dropAll (guest : Guest) (fuel : Nat)
  | setDisabled (disable : Bool)

/-- A queue with the popped elements, the latest first, those filled in but not flushed, and the
number of those that were flushed while the device was disabled, and so were lost. -/
structure QueueUse where
  m : Machine
  popped : List VirtQueueElement
  filled : List VirtQueueElement
  discarded : Nat

/-- A flush of some elements loses them if the device is disabled. -/
def discardedAfter (vdev : VirtIODevice) (discarded count : Nat) : Nat :=
  if virtioDeviceDisabled vdev then discarded + count else discarded

/-- One call, by a device that only pushes and returns what it popped; none if it aborts or does not
return. -/
def QueueUse.step (u : QueueUse) : QueueCall → Option QueueUse
  | .pop guest => (virtqueuePop guest u.m).map fun (elem, m) => { u with
    m, popped := elem.toList ++ u.popped }
  | .fill guest elem len idx =>
    if elem ∈ u.popped then
      some { u with
        m := virtqueueFill guest u.m elem len idx
        popped := u.popped.erase elem
        filled := elem :: u.filled }
    else none
  | .flush guest =>
    some { u with
      m := virtqueueFlush guest u.m (BitVec.ofNat 32 u.filled.length)
      filled := []
      discarded := discardedAfter u.m.vdev u.discarded u.filled.length }
  | .push guest elem len =>
    if elem ∈ u.popped then
      some { u with
        m := virtqueuePush guest u.m elem len
        popped := u.popped.erase elem
        discarded := discardedAfter u.m.vdev u.discarded 1 }
    else none
  -- Only the latest elements are returned.
  | .unpop => match u.popped with
    | [] => none
    | elem :: rest => some { u with m := virtqueueUnpop u.m elem, popped := rest }
  | .rewind num =>
    if num ≤ u.popped.length then
      some { u with
        m := (virtqueueRewind u.m (BitVec.ofNat 32 num)).2, popped := u.popped.drop num }
    else none
  | .dropAll guest fuel => (virtqueueDropAll guest fuel u.m).map fun (_, m) => { u with m }
  | .setDisabled disable => some { u with m := virtioSetDisabled u.m disable }

theorem QueueUse.step_unpop {u u' : QueueUse} (step : u.step .unpop = some u') :
    ∃ elem rest, u.popped = elem :: rest ∧ u' = { u with
      m := virtqueueUnpop u.m elem, popped := rest } := by
  rw [QueueUse.step] at step
  split at step
  case h_1 => contradiction
  case h_2 elem rest popped => exact ⟨elem, rest, popped, (Option.some.inj step).symm⟩

end Qemu.Virtio
