import Qemu.Lib.MergeDiff
import Qemu.Lib.Transition
import Qemu.Memory.Access
import Qemu.Memory.Resolve

/-! The eventfds of an address space: collecting them from the flat view and telling the listeners
what changed. -/

namespace Qemu.Memory

open MergeDiff

/-- A range moved by a distance. -/
def addrrangeShift (range : AddrRange) (delta : Int) : AddrRange :=
  { range with start := range.start + delta }

/-- Count of trailing zero bits. -/
def ctz32 (value : BitVec 32) : Nat := value.ctz.toNat

/-- Powers of two are checked in debug builds only. -/
def sizeMemop (size : BitVec 32) : MemOp := BitVec.ofNat 32 (ctz32 size)

/-- The eventfd of `memory_region_add_eventfd` and `_del_eventfd`. -/
def makeIoeventfd (orders : ByteOrders) (endianness : DeviceEndian)
    (addr : BitVec 64) (size : BitVec 32)
    (matchData : Bool) (data : BitVec 64) (e : Nat) : MemoryRegionIoeventfd :=
  { addr := ⟨addr.toNat, size.toNat⟩
    matchData := matchData
    data := if size ≠ 0#32 then adjustEndianness orders endianness data
      (sizeMemop size ||| moTe orders) else data
    e := e }

/-- The loop of `memory_region_add_eventfd`: before the first that it comes before. -/
def insertIoeventfd (mrfd : MemoryRegionIoeventfd) : List MemoryRegionIoeventfd →
    List MemoryRegionIoeventfd
  | [] => [mrfd]
  | fd :: rest => if memoryRegionIoeventfdBefore mrfd fd then mrfd :: fd :: rest
      else fd :: insertIoeventfd mrfd rest

/-- The loop of `memory_region_del_eventfd`, asserted to find one. -/
def removeIoeventfd (mrfd : MemoryRegionIoeventfd) : List MemoryRegionIoeventfd →
    Option (List MemoryRegionIoeventfd)
  | [] => none
  | fd :: rest =>
    if memoryRegionIoeventfdEqual mrfd fd then some rest
      else (removeIoeventfd mrfd rest).map (fd :: ·)

/-- The eventfd as seen through a flat range, if it reaches into it. -/
def visibleIoeventfd (fr : FlatRange) (fd : MemoryRegionIoeventfd) : Option MemoryRegionIoeventfd :=
  let tmp := addrrangeShift fd.addr (fr.addr.start - fr.offsetInRegion)
  if addrrangeIntersects fr.addr tmp then some { fd with addr := tmp } else none

/-- The inner loop of `address_space_update_ioeventfds`. -/
def rangeIoeventfds (eventfds : Nat → List MemoryRegionIoeventfd) (fr : FlatRange) :
    List MemoryRegionIoeventfd :=
  (eventfds fr.mr).filterMap (visibleIoeventfd fr)

/-- The list that `address_space_update_ioeventfds` builds. -/
def collectIoeventfds (eventfds : Nat → List MemoryRegionIoeventfd) (view : FlatView) :
    List MemoryRegionIoeventfd :=
  view.flatMap (rangeIoeventfds eventfds)

/-- What a listener is told; the start is asserted to fit 64 bits. -/
def ioeventfdSection (fd : MemoryRegionIoeventfd) : Option MemoryRegionIoeventfd :=
  (int128Get64 fd.addr.start).map fun (start : Nat) => { fd with addr := ⟨start, fd.addr.size⟩ }

/-- The calls to the listeners. -/
def addressSpaceAddDelIoeventfds :
    List MemoryRegionIoeventfd → List MemoryRegionIoeventfd →
      Option (List (Call MemoryRegionIoeventfd))
  | [], [] => some []
  | fd :: old, [] => do
    let told ← ioeventfdSection fd
    let calls ← addressSpaceAddDelIoeventfds old []
    return .del told :: calls
  | [], fd :: new => do
    let told ← ioeventfdSection fd
    let calls ← addressSpaceAddDelIoeventfds [] new
    return .add told :: calls
  | fdOld :: old, fdNew :: new =>
    if memoryRegionIoeventfdBefore fdOld fdNew then do
      let told ← ioeventfdSection fdOld
      let calls ← addressSpaceAddDelIoeventfds old (fdNew :: new)
      return .del told :: calls
    else if memoryRegionIoeventfdBefore fdNew fdOld then do
      let told ← ioeventfdSection fdNew
      let calls ← addressSpaceAddDelIoeventfds (fdOld :: old) new
      return .add told :: calls
    else addressSpaceAddDelIoeventfds old new
termination_by old new => old.length + new.length

/-- An address space, the eventfds, and what a listener registered. -/
structure IoeventfdState where
  eventfds : Nat → List MemoryRegionIoeventfd
  view : FlatView
  ioeventfds : List MemoryRegionIoeventfd
  registered : List MemoryRegionIoeventfd

/-- An address space without regions. -/
def IoeventfdState.empty : IoeventfdState :=
  { eventfds := fun _ => [], view := [], ioeventfds := [], registered := [] }

/-- What can happen to an address space: any regions and views may change between two updates. -/
inductive IoeventfdChange where
  | addEventfd (mr : Nat) (addr : BitVec 64) (size : BitVec 32) (matchData : Bool)
      (data : BitVec 64) (e : Nat)
  | delEventfd (mr : Nat) (addr : BitVec 64) (size : BitVec 32) (matchData : Bool)
      (data : BitVec 64) (e : Nat)
  | topology (globalDirtyLog : Bool) (root : Option MemoryRegion)
  | update

def setEventfds (eventfds : Nat → List MemoryRegionIoeventfd) (mr : Nat)
    (list : List MemoryRegionIoeventfd) : Nat → List MemoryRegionIoeventfd :=
  fun other => if other = mr then list else eventfds other

/-- Tell the listeners, replace the list. -/
def addressSpaceUpdateIoeventfds (state : IoeventfdState) : Option IoeventfdState := do
  let ioeventfds := collectIoeventfds state.eventfds state.view
  let calls ← addressSpaceAddDelIoeventfds state.ioeventfds ioeventfds
  return { state with
    ioeventfds := ioeventfds, registered := GuardedRun.runFrom applyCall state.registered calls }

/-- One change; a failed assertion has no next state. -/
def ioeventfdStep (orders : ByteOrders) (endianness : Nat → DeviceEndian) (state : IoeventfdState) :
    IoeventfdChange → Option IoeventfdState
  | .addEventfd mr addr size matchData data e =>
    let mrfd := makeIoeventfd orders (endianness mr) addr size matchData data e
    some { state with eventfds := setEventfds state.eventfds mr (insertIoeventfd
      mrfd (state.eventfds mr)) }
  | .delEventfd mr addr size matchData data e =>
    let mrfd := makeIoeventfd orders (endianness mr) addr size matchData data e
    (removeIoeventfd mrfd (state.eventfds mr)).map fun list =>
      { state with eventfds := setEventfds state.eventfds mr list }
  | .topology globalDirtyLog root =>
    (generateMemoryTopology globalDirtyLog root).map fun view => { state with view := view }
  | .update => addressSpaceUpdateIoeventfds state

end Qemu.Memory
