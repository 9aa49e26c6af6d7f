import Mathlib.Data.BitVec

/-! Transfers to an address space, split as the regions support. -/

namespace Qemu.Exec.Mmio

abbrev Hwaddr := BitVec 64

/-- What the loops read of a memory region. -/
structure MemoryRegion where
  ram : Bool
  readonly : Bool
  romDevice : Bool
  ramDevice : Bool
  romdMode : Bool
  /-- `ops->valid.max_access_size`. -/
  maxAccessSize : BitVec 32
  /-- `ops->impl.unaligned`. -/
  unaligned : Bool

def memoryAccessIsDirect (mr : MemoryRegion) (isWrite : Bool) : Bool :=
  if isWrite then mr.ram && !mr.readonly && !mr.romDevice && !mr.ramDevice
  else (mr.ram && !mr.ramDevice) || (mr.romDevice && mr.romdMode)

/-- Of a value that is not zero. -/
def clz64 (value : BitVec 64) : Nat := 63 - Nat.log2 value.toNat

def pow2floor (value : BitVec 64) : BitVec 64 :=
  if value = 0 then 0 else 0x8000000000000000#64 >>> clz64 value

/-- The bound of `memory_access_size` by region and alignment. -/
def accessSizeMax (mr : MemoryRegion) (addr : Hwaddr) : BitVec 32 :=
  let accessSizeMax := if mr.maxAccessSize = 0 then 4 else mr.maxAccessSize
  if mr.unaligned then accessSizeMax
  else
    let alignSizeMax := (addr &&& -addr).setWidth 32
    if alignSizeMax ≠ 0 ∧ alignSizeMax < accessSizeMax then alignSizeMax else accessSizeMax

/-- From `unsigned` to `int`. -/
def memoryAccessSize (mr : MemoryRegion) (l : BitVec 32) (addr : Hwaddr) : BitVec 32 :=
  let l := if accessSizeMax mr addr < l then accessSizeMax mr addr else l
  (pow2floor (l.setWidth 64)).setWidth 32

/-- `memory_access_size` as the loops call it: the length is cut to 32 bits, the result
sign-extended. -/
def mmioAccessSize (mr : MemoryRegion) (l addr : Hwaddr) : Hwaddr :=
  (memoryAccessSize mr (l.setWidth 32) addr).signExtend 64

/-- `flatview_translate` finds a region, an address in it and a length. -/
structure Translation where
  mr : MemoryRegion
  addr1 : Hwaddr
  l : Hwaddr

/-- A flat view; a length may be shortened, but not to zero. -/
structure View where
  flatviewTranslate : Bool → Hwaddr → Hwaddr → Translation
  translate_pos : ∀ isWrite addr len, len ≠ 0 → (flatviewTranslate isWrite addr len).l ≠ 0
  translate_le : ∀ isWrite addr len, (flatviewTranslate isWrite addr len).l ≤ len
  qemuRamPtrLength : Hwaddr → Hwaddr → Hwaddr
  ram_pos : ∀ addr1 l, l ≠ 0 → qemuRamPtrLength addr1 l ≠ 0
  ram_le : ∀ addr1 l, qemuRamPtrLength addr1 l ≤ l

/-- An access: its address, its size and where it goes. -/
structure Access where
  addr : Hwaddr
  size : Hwaddr
  mr : MemoryRegion
  addr1 : Hwaddr

/-- The variables at the head of the loop. -/
structure Transfer where
  addr : Hwaddr
  len : Hwaddr
  at_ : Translation

variable (view : View) (isWrite : Bool)

/-- The size of the next access, asserted to be 1, 2, 4 or 8. -/
def accessLength (t : Transfer) : Option Hwaddr :=
  if memoryAccessIsDirect t.at_.mr isWrite then some (view.qemuRamPtrLength t.at_.addr1 t.at_.l)
  else
    let l := mmioAccessSize t.at_.mr t.at_.l t.at_.addr1
    if l = 1 ∨ l = 2 ∨ l = 4 ∨ l = 8 then some l else none

/-- `flatview_write_continue` and `flatview_read_continue`: the accesses, if the loop ends in some
rounds. -/
def flatviewContinue : Nat → Transfer → Option (List Access)
  | 0, _ => none
  | fuel + 1, t =>
    match accessLength view isWrite t with
    | none => none
    | some l =>
      let access : Access := ⟨t.addr, l, t.at_.mr, t.at_.addr1⟩
      let len := t.len - l
      let addr := t.addr + l
      if len = 0 then some [access]
      else (flatviewContinue fuel ⟨addr, len, view.flatviewTranslate isWrite addr len⟩).map
        (access :: ·)

/-- How `flatview_write` and `flatview_read` enter the loop. -/
def flatviewTransfer (addr len : Hwaddr) : Transfer :=
  ⟨addr, len, view.flatviewTranslate isWrite addr len⟩

end Qemu.Exec.Mmio
