import Mathlib.Data.List.Basic
import Mathlib.Algebra.Order.Ring.Int

/-! Address ranges and regions of `softmmu/memory.c`, in 128 bits. -/

namespace Qemu.Memory

/-- A range of signed addresses: negative starts arise below aliases. The source has 128-bit
integers, which no chain of regions that fits in memory can overflow. -/
structure AddrRange where
  start : Int
  size : Int
  deriving DecidableEq, Repr

/-- One past the last address of a range. -/
def addrrangeEnd (r : AddrRange) : Int := r.start + r.size

def addrrangeContains (r : AddrRange) (addr : Int) : Bool :=
  decide (addr ≥ r.start) && decide (addr < addrrangeEnd r)

/-- One contains the start of the other. -/
def addrrangeIntersects (r₁ r₂ : AddrRange) : Bool :=
  addrrangeContains r₁ r₂.start || addrrangeContains r₂ r₁.start

/-- The common part. -/
def addrrangeIntersection (r₁ r₂ : AddrRange) : AddrRange :=
  let start := max r₁.start r₂.start
  let stop := min (addrrangeEnd r₁) (addrrangeEnd r₂)
  { start := start, size := stop - start }

/-- The size of the whole address space, `int128_2_64`. -/
def twoTo64 : Int := 2 ^ 64

/-- Asserts that the number fits. -/
def int128Get64 (a : Int) : Option Nat := if 0 ≤ a ∧ a < twoTo64 then some a.toNat else none

/-- What every region carries, with the widths its fields have in the source. -/
structure RegionInfo where
  /-- The address by which regions are compared. -/
  id : Nat
  enabled : Bool
  readonly : Bool
  nonvolatile : Bool
  /-- Position within the container, a `hwaddr`. -/
  addr : Nat
  size : Nat
  priority : Int
  addr_lt : addr < 2 ^ 64
  size_le : size ≤ 2 ^ 64

theorem zero_lt_two_pow_64 : 0 < 2 ^ 64 := by decide

theorem page_le_two_pow_64 : 0x1000 ≤ 2 ^ 64 := by decide

theorem two_pow_64_le_self : 2 ^ 64 ≤ 2 ^ 64 := le_rfl

/-- A region other than an alias: whether it answers, and logs. -/
structure ContentInfo where
  terminates : Bool
  romdMode : Bool
  dirtyLogMask : BitVec 8
  /-- Whether a RAM block backs the region. -/
  ramBlock : Bool

/-- A finite tree of memory regions. An alias has its target by value, as rendering changes no
region, and no list of subregions, as those of an alias are never read. -/
inductive MemoryRegion where
  | alias (info : RegionInfo) (aliasOffset : Nat)
      (offset_lt : aliasOffset < 2 ^ 64) (target : MemoryRegion)
  | region (info : RegionInfo) (content : ContentInfo) (subregions : List MemoryRegion)

def MemoryRegion.info : MemoryRegion → RegionInfo
  | .alias info _ _ _ => info
  | .region info _ _ => info

@[simp] theorem MemoryRegion.info_alias (info offset) (bound : offset < 2 ^ 64)
    (target) : (MemoryRegion.alias info offset bound target).info = info := rfl

@[simp] theorem MemoryRegion.info_region (info content subs) :
    (MemoryRegion.region info content subs).info = info := rfl

/-- The clients that log writes to a region. -/
def memoryRegionGetDirtyLogMask (globalDirtyLog : Bool) (content : ContentInfo) : BitVec 8 :=
  -- Migration is client number two, and follows the global flag for regions backed by RAM.
  if globalDirtyLog && content.ramBlock then content.dirtyLogMask ||| 4#8 else content.dirtyLogMask

/-- A new subregion goes before the first one of no higher priority. -/
def memoryRegionUpdateContainerSubregions (subregion : MemoryRegion) :
    List MemoryRegion → List MemoryRegion
  | [] => [subregion]
  | other :: rest =>
    if subregion.info.priority ≥ other.info.priority then subregion :: other :: rest
    else other :: memoryRegionUpdateContainerSubregions subregion rest

theorem addrrangeContains_iff (r addr) : addrrangeContains r addr ↔
    r.start ≤ addr ∧ addr < r.start + r.size := by
  rw [addrrangeContains, Bool.and_eq_true, decide_eq_true_eq, decide_eq_true_eq, addrrangeEnd]

theorem addrrangeIntersects_of_common {r₁ r₂ addr}
    (first : addrrangeContains r₁ addr) (second : addrrangeContains r₂ addr) :
    addrrangeIntersects r₁ r₂ := by
  -- The larger of the two starts lies in both ranges.
  simp only [addrrangeIntersects, Bool.or_eq_true, addrrangeContains_iff] at *
  omega

theorem addrrangeContains_intersection (r₁ r₂ addr) :
    addrrangeContains (addrrangeIntersection r₁ r₂) addr ↔
      addrrangeContains r₁ addr ∧ addrrangeContains r₂ addr := by
  simp only [addrrangeContains_iff, addrrangeIntersection, addrrangeEnd]
  omega

end Qemu.Memory
