import Qemu.Lib.ByteOrder
import Qemu.Memory.Ioeventfd

/-! Accesses to device regions: splitting, byte order and dispatch. -/

namespace Qemu.Memory

open ByteOrder

/-- `HOST_WORDS_BIGENDIAN` and `TARGET_WORDS_BIGENDIAN`. -/
structure ByteOrders where
  hostBig : Bool
  targetBig : Bool

/-- The byte order a device declares, `enum device_endian`. -/
inductive DeviceEndian where
  | native
  | big
  | little
  deriving DecidableEq

def deviceHostEndian (orders : ByteOrders) : DeviceEndian :=
  if orders.hostBig then .big else .little

/-- The order that the host has not, in `devend_memop`. -/
def nonHostEndianness (orders : ByteOrders) : DeviceEndian :=
  if orders.hostBig then .little else .big

def memoryRegionBigEndian (orders : ByteOrders) (endianness : DeviceEndian) : Bool :=
  if orders.targetBig then endianness ≠ .little else endianness = .big

/-- Size and byte order of an access as bits. -/
abbrev MemOp := BitVec 32

/-- The mask of the size. -/
def moSize : MemOp := 3#32

/-- The bit that reverses the order of the host. -/
def moBswap : MemOp := 8#32

/-- The order of the target. -/
def moTe (orders : ByteOrders) : MemOp :=
  if orders.hostBig = orders.targetBig then 0#32 else moBswap

def memopSize (op : MemOp) : Nat := 1 <<< (op &&& moSize).toNat

/-- The access whose byte order is that of a device. -/
def devendMemop (orders : ByteOrders) (endianness : DeviceEndian) : MemOp :=
  if orders.hostBig ≠ orders.targetBig then
    if endianness = deviceHostEndian orders then 0#32 else moBswap
  else
    if endianness = nonHostEndianness orders then moBswap else 0#32

/-- Swap where device and access differ. -/
def adjustEndianness (orders : ByteOrders) (endianness : DeviceEndian) (data : BitVec 64)
    (op : MemOp) : BitVec 64 :=
  if op &&& moBswap ≠ devendMemop orders endianness then
    -- The byte swaps take 16, 32 and 64 bits, so the smaller ones drop what is above.
    if op &&& moSize = 0#32 then data
    else if op &&& moSize = 1#32 then reverse data 2
    else if op &&& moSize = 2#32 then reverse data 4
    else reverse data 8
  else data

/-- The bits are collected. -/
abbrev MemTxResult := BitVec 32

/-- Success. -/
def memtxOk : MemTxResult := 0#32

/-- Nothing at the address. -/
def memtxDecodeError : MemTxResult := 2#32

/-- A callback gets the state of the device, an opaque pointer in the source, and returns the next.
-/
structure MemoryRegionOps (σ α : Type) where
  read : Option (σ → BitVec 64 → Nat → BitVec 64 × σ)
  write : Option (σ → BitVec 64 → BitVec 64 → Nat → σ)
  readWithAttrs : σ → BitVec 64 → Nat → α → MemTxResult × BitVec 64 × σ
  writeWithAttrs : σ → BitVec 64 → BitVec 64 → Nat → α → MemTxResult × σ
  endianness : DeviceEndian
  validMinAccessSize : Nat
  validMaxAccessSize : Nat
  validUnaligned : Bool
  validAccepts : Option (σ → BitVec 64 → Nat → Bool → α → Bool)
  implMinAccessSize : Nat
  implMaxAccessSize : Nat

/-- What an access leaves: its outcome, the value and the device. -/
structure Access (σ : Type) where
  result : MemTxResult
  value : BitVec 64
  device : σ

/-- One access by a callback: device, address, value, size, shift and mask. -/
abbrev AccessFn (σ : Type) := σ → BitVec 64 → BitVec 64 → Nat → Int → BitVec 64 → Access σ

variable {σ α : Type}

/-- Put what was read in place. -/
def memoryRegionShiftReadAccess (value : BitVec 64) (shift : Int)
    (mask tmp : BitVec 64) : BitVec 64 :=
  if shift ≥ 0 then value ||| ((tmp &&& mask) <<< shift.toNat)
  else value ||| ((tmp &&& mask) >>> (-shift).toNat)

/-- The part to be written. -/
def memoryRegionShiftWriteAccess (value : BitVec 64) (shift : Int) (mask : BitVec 64) : BitVec 64 :=
  if shift ≥ 0 then (value >>> shift.toNat) &&& mask
  else (value <<< (-shift).toNat) &&& mask

def memoryRegionReadAccessor (read : σ → BitVec 64 → Nat → BitVec 64 × σ) : AccessFn σ :=
  fun device addr value size shift mask =>
    let (tmp, device) := read device addr size
    { result := memtxOk, value := memoryRegionShiftReadAccess value shift mask tmp,
      device := device }

def memoryRegionReadWithAttrsAccessor (ops : MemoryRegionOps σ α) (attrs : α) : AccessFn σ :=
  fun device addr value size shift mask =>
    let (r, tmp, device) := ops.readWithAttrs device addr size attrs
    { result := r, value := memoryRegionShiftReadAccess value shift mask tmp, device := device }

def memoryRegionWriteAccessor (write : σ → BitVec 64 → BitVec 64 → Nat → σ) : AccessFn σ :=
  fun device addr value size shift mask =>
    let tmp := memoryRegionShiftWriteAccess value shift mask
    { result := memtxOk, value := value, device := write device addr tmp size }

def memoryRegionWriteWithAttrsAccessor (ops : MemoryRegionOps σ α) (attrs : α) : AccessFn σ :=
  fun device addr value size shift mask =>
    let tmp := memoryRegionShiftWriteAccess value shift mask
    let (r, device) := ops.writeWithAttrs device addr tmp size attrs
    { result := r, value := value, device := device }

/-- The accessor that `memory_region_dispatch_read1` chooses. -/
def readAccessor (ops : MemoryRegionOps σ α) (attrs : α) : AccessFn σ :=
  match ops.read with
  | some read => memoryRegionReadAccessor read
  | none => memoryRegionReadWithAttrsAccessor ops attrs

/-- The accessor that `memory_region_dispatch_write` chooses. -/
def writeAccessor (ops : MemoryRegionOps σ α) (attrs : α) : AccessFn σ :=
  match ops.write with
  | some write => memoryRegionWriteAccessor write
  | none => memoryRegionWriteWithAttrsAccessor ops attrs

/-- A mask of low bits, `MAKE_64BIT_MASK` with no shift. -/
def make64BitMask (length : Nat) : BitVec 64 := BitVec.allOnes 64 >>> (64 - length)

/-- The shift of the piece at `i` of a big-endian access, unsigned and then read with a sign. -/
def bigShift (size accessSize i : Nat) : Int :=
  ((BitVec.ofNat 32 size - BitVec.ofNat 32 accessSize - BitVec.ofNat 32 i) * 8#32).toInt

/-- The shift of the piece at `i` of a little-endian access. -/
def littleShift (i : Nat) : Int := (BitVec.ofNat 32 i * 8#32).toInt

/-- The loops of `access_with_adjusted_size`, by their shift; a step goes on at least a byte. -/
def accessLoop (accessFn : AccessFn σ) (addr : BitVec 64)
    (size accessSize : Nat) (shift : Nat → Int) (mask : BitVec 64) : Nat → Nat → Access σ → Access σ
  | 0, _, access => access
  | fuel + 1, i, access =>
    if i < size then
      let next := accessFn access.device (addr + BitVec.ofNat 64 i) access.value
        accessSize (shift i) mask
      accessLoop accessFn addr size accessSize shift mask fuel (i + accessSize)
        { next with result := access.result ||| next.result }
    else access

/-- The smallest size a device implements, one where none is given. -/
def accessSizeMin (ops : MemoryRegionOps σ α) : Nat :=
  if ops.implMinAccessSize = 0 then 1 else ops.implMinAccessSize

/-- The largest size a device implements, four where none is given. -/
def accessSizeMax (ops : MemoryRegionOps σ α) : Nat :=
  if ops.implMaxAccessSize = 0 then 4 else ops.implMaxAccessSize

/-- The size of the accesses that a given one is split into. -/
def accessSize (ops : MemoryRegionOps σ α) (size : Nat) : Nat :=
  max (min size (accessSizeMax ops)) (accessSizeMin ops)

/-- Split as the device implements. -/
def accessWithAdjustedSize (orders : ByteOrders) (ops : MemoryRegionOps σ α) (accessFn : AccessFn σ)
    (addr value : BitVec 64) (size : Nat) (device : σ) : Access σ :=
  let mask := make64BitMask (accessSize ops size * 8)
  let start : Access σ := { result := memtxOk, value := value, device := device }
  if memoryRegionBigEndian orders ops.endianness then
    accessLoop accessFn addr size (accessSize ops size) (bigShift size (accessSize ops size)) mask
      size 0 start
  else
    accessLoop accessFn addr size (accessSize ops size) littleShift mask size 0 start

/-- The device takes an access. -/
def memoryRegionAccessValid (ops : MemoryRegionOps σ α) (device : σ) (addr : BitVec 64) (size : Nat)
    (isWrite : Bool) (attrs : α) : Bool :=
  if (ops.validAccepts.any fun accepts => !accepts device addr size isWrite attrs) then false
  else if !ops.validUnaligned ∧ addr &&& BitVec.ofNat 64 (size - 1) ≠ 0#64 then false
  else if ops.validMaxAccessSize = 0 then true
  else if size > ops.validMaxAccessSize ∨ size < ops.validMinAccessSize then false
  else true

def memoryRegionDispatchRead (orders : ByteOrders) (ops : MemoryRegionOps σ α)
    (device : σ) (addr : BitVec 64) (op : MemOp) (attrs : α) : Access σ :=
  let size := memopSize op
  if !memoryRegionAccessValid ops device addr size false attrs then
    { result := memtxDecodeError, value := 0#64, device := device }
  else
    let access := accessWithAdjustedSize orders ops (readAccessor ops attrs) addr 0#64 size device
    { access with value := adjustEndianness orders ops.endianness access.value op }

/-- The notifier of a write. -/
def memoryRegionDispatchWriteEventfds (ioeventfds : List MemoryRegionIoeventfd)
    (addr data : BitVec 64) (size : Nat) : Option Nat :=
  (ioeventfds.find? fun fd => memoryRegionIoeventfdEqual
    { addr := ⟨addr.toNat, size⟩, matchData := fd.matchData, data := data, e := fd.e } fd).map (·.e)

/-- A write: its outcome, the device, and a notifier instead. -/
structure DispatchedWrite (σ : Type) where
  result : MemTxResult
  device : σ
  signalled : Option Nat

def memoryRegionDispatchWrite (orders : ByteOrders) (kvmEventfdsEnabled : Bool)
    (ops : MemoryRegionOps σ α)
    (ioeventfds : List MemoryRegionIoeventfd) (device : σ) (addr data : BitVec 64)
    (op : MemOp) (attrs : α) : DispatchedWrite σ :=
  let size := memopSize op
  if !memoryRegionAccessValid ops device addr size true attrs then
    { result := memtxDecodeError, device := device, signalled := none }
  else
    let data := adjustEndianness orders ops.endianness data op
    let signalled := if kvmEventfdsEnabled then none else memoryRegionDispatchWriteEventfds
      ioeventfds addr data size
    if signalled.isSome then { result := memtxOk, device := device, signalled := signalled }
    else
      let access :=
        accessWithAdjustedSize orders ops (writeAccessor ops attrs) addr data size device
      { result := access.result, device := access.device, signalled := none }

end Qemu.Memory
