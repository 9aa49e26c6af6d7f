import Qemu.Memory.Region
import Mathlib.Data.Prod.Lex
import Mathlib.Order.Bounds.Basic

/-! Event notifiers of a region, and their order. -/

namespace Qemu.Memory

/-- An address range whose writes, all or those of one value, signal a notifier. -/
structure MemoryRegionIoeventfd where
  addr : AddrRange
  matchData : Bool
  data : BitVec 64
  e : Nat
  deriving DecidableEq, Repr

/-- The order of two eventfds. -/
def memoryRegionIoeventfdBefore (a b : MemoryRegionIoeventfd) : Bool :=
  if a.addr.start < b.addr.start then true
  else if a.addr.start > b.addr.start then false
  else if a.addr.size < b.addr.size then true
  else if a.addr.size > b.addr.size then false
  else if a.matchData.toNat < b.matchData.toNat then true
  else if a.matchData.toNat > b.matchData.toNat then false
  else if a.matchData ∧ a.data < b.data then true
  else if a.matchData ∧ a.data > b.data then false
  else if a.e < b.e then true
  else false

/-- Neither comes before the other. -/
def memoryRegionIoeventfdEqual (a b : MemoryRegionIoeventfd) : Bool :=
  !memoryRegionIoeventfdBefore a b && !memoryRegionIoeventfdBefore b a

/-- What the order compares: the data only where they are matched. -/
def MemoryRegionIoeventfd.key (fd : MemoryRegionIoeventfd) : Int ×ₗ Int ×ₗ Nat ×ₗ Nat ×ₗ Nat :=
  toLex (fd.addr.start, toLex (fd.addr.size, toLex (fd.matchData.toNat,
    toLex (if fd.matchData then fd.data.toNat else 0, fd.e))))

theorem memoryRegionIoeventfdBefore_iff (a b) : memoryRegionIoeventfdBefore a b ↔
    a.key < b.key := by
  obtain ⟨⟨startA, sizeA⟩, matchA, dataA, eA⟩ := a
  obtain ⟨⟨startB, sizeB⟩, matchB, dataB, eB⟩ := b
  simp only [memoryRegionIoeventfdBefore, MemoryRegionIoeventfd.key,
    Prod.Lex.toLex_lt_toLex, BitVec.lt_def]
  -- Each comparison of the source settles one component.
  cases matchA <;> cases matchB <;> simp <;> omega

theorem memoryRegionIoeventfdEqual_iff (a b) : memoryRegionIoeventfdEqual a b ↔ a.key = b.key := by
  simp only [memoryRegionIoeventfdEqual, Bool.and_eq_true, Bool.not_eq_true', ← Bool.not_eq_true,
    memoryRegionIoeventfdBefore_iff, not_lt]
  exact ⟨fun both => le_antisymm both.2 both.1, fun same => ⟨same.ge, same.le⟩⟩

end Qemu.Memory
