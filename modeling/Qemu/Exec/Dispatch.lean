import Qemu.Exec.PhysPageMap
import Qemu.Memory.FlatView

/-! Registering sections and looking addresses up: `AddressSpaceDispatch`. -/

namespace Qemu.Exec

open Memory

/-- The page size of a target, at most 64 KiB. -/
structure TargetPage where
  bits : Nat
  bits_le : bits ≤ 16

/-- Bytes of a page, `TARGET_PAGE_SIZE`. -/
def TargetPage.size (page : TargetPage) : Nat := 2 ^ page.bits

/-- Levels of the radix tree, `P_L2_LEVELS`. -/
def TargetPage.levels (page : TargetPage) : Nat := (64 - page.bits - 1) / pL2Bits + 1

/-- `TARGET_PAGE_ALIGN` in 64 bits. -/
def TargetPage.align (page : TargetPage) (addr : Nat) : Nat :=
  let rounded := (addr + page.size - 1) % 2 ^ 64
  rounded - rounded % page.size

/-- The region of a section: nothing, one of the tree, or a shared page. -/
inductive SectionRegion where
  | ioMemUnassigned
  | region (mr : Nat)
  | subpage (number : Nat)
  deriving DecidableEq

/-- A part of a region at an address. -/
structure MemoryRegionSection where
  mr : SectionRegion
  offsetWithinRegion : Nat
  size : Nat
  offsetWithinAddressSpace : Nat
  readonly : Bool
  nonvolatile : Bool
  deriving DecidableEq

def sectionFromFlatRange (fr : FlatRange) : Option MemoryRegionSection := do
  let start ← int128Get64 fr.addr.start
  return { mr := .region fr.mr, offsetWithinRegion := fr.offsetInRegion, size := fr.addr.size.toNat,
           offsetWithinAddressSpace := start, readonly := fr.readonly,
           nonvolatile := fr.nonvolatile }

/-- `subpage_t`: one section number for each byte of a page. -/
structure Subpage where
  base : Nat
  subSection : Nat → Nat

/-- `AddressSpaceDispatch` without its cache of the last section. -/
structure AddressSpaceDispatch where
  physMap : PhysPageEntry
  map : NodeCounts
  sections : List MemoryRegionSection
  subpages : List Subpage

/-- Computed in 64 bits. -/
def sectionCoversAddr (sect : MemoryRegionSection) (addr : Nat) : Bool :=
  -- A size of two to the 64 covers the whole address space.
  sect.size / 2 ^ 64 ≠ 0 ||
    (sect.offsetWithinAddressSpace ≤ addr &&
      addr ≤ (sect.offsetWithinAddressSpace + sect.size % 2 ^ 64 + (2 ^ 64 - 1)) % 2 ^ 64)

variable (page : TargetPage)

/-- The number of the section for an address. -/
def physPageFind (d : AddressSpaceDispatch) (addr : Nat) : Option Nat := do
  let ptr ← physPageWalk (addr >>> page.bits) d.physMap page.levels
  let sect ← d.sections[ptr]?
  return if sectionCoversAddr sect addr then ptr else physSectionUnassigned

/-- The number of a section, asserted to fit a page. -/
def physSectionAdd (d : AddressSpaceDispatch) (sect : MemoryRegionSection) :
    Option (Nat × AddressSpaceDispatch) :=
  if d.sections.length < page.size then
    some (d.sections.length % 2 ^ 16, { d with sections := d.sections ++ [sect] })
  else none

/-- Point a run of pages to a section. -/
def physPageSet (d : AddressSpaceDispatch) (index nb leaf : Nat) : Option AddressSpaceDispatch := do
  let map := physMapNodeReserve d.map (3 * page.levels)
  let (physMap, state) ← physPageSetLevel leaf (page.levels - 1) d.physMap ⟨map, index, nb⟩
  return { d with physMap := physMap, map := state.map }

/-- A run of bytes, with 32-bit positions. -/
def subpageRegister (mmio : Subpage) (first last sect : Nat) : Subpage :=
  if first ≥ page.size ∨ last ≥ page.size then mmio
  else { mmio with
    subSection := fun idx => if first ≤ idx ∧ idx ≤ last then sect else mmio.subSection idx }

/-- The end of `register_subpage`: the section joins a shared page. -/
def registerInSubpage (d : AddressSpaceDispatch) (number : Nat) (sect : MemoryRegionSection) :
    Option AddressSpaceDispatch := do
  let first := sect.offsetWithinAddressSpace % page.size
  let size ← int128Get64 sect.size
  let last := (first + size + (2 ^ 64 - 1)) % 2 ^ 64
  let (index, d) ← physSectionAdd page d sect
  return { d with
    subpages := d.subpages.modify number fun mmio =>
      subpageRegister page mmio (first % 2 ^ 32) (last % 2 ^ 32) index }

/-- A section within one page. -/
def registerSubpage (d : AddressSpaceDispatch) (sect : MemoryRegionSection) :
    Option AddressSpaceDispatch := do
  let base := sect.offsetWithinAddressSpace - sect.offsetWithinAddressSpace % page.size
  let existing ← physPageFind page d base
  let existing ← d.sections[existing]?
  match existing.mr with
  | .region _ => none -- The assertion that the page is shared already or free.
  | .subpage number => registerInSubpage page d number sect
  | .ioMemUnassigned => do
    -- The new page starts out unassigned everywhere.
    let number := d.subpages.length
    let d := { d with subpages := d.subpages ++ [⟨base, fun _ => physSectionUnassigned⟩] }
    let (leaf, d) ← physSectionAdd page d
      { mr := .subpage number, offsetWithinRegion := 0, size := page.size,
        offsetWithinAddressSpace := base, readonly := false, nonvolatile := false }
    let d ← physPageSet page d (base >>> page.bits) 1 leaf
    registerInSubpage page d number sect

/-- Register a section of whole pages. -/
def registerMultipage (d : AddressSpaceDispatch) (sect : MemoryRegionSection) :
    Option AddressSpaceDispatch := do
  let (index, d) ← physSectionAdd page d sect
  let numPages ← int128Get64 (sect.size >>> page.bits : Nat)
  if numPages = 0 then none else
  physPageSet page d (sect.offsetWithinAddressSpace >>> page.bits) numPages index

/-- What is left of a section after its first bytes, with 64-bit offsets. -/
def MemoryRegionSection.advance (sect : MemoryRegionSection) (run : Nat) : MemoryRegionSection :=
  { sect with
    size := sect.size - run
    offsetWithinAddressSpace := (sect.offsetWithinAddressSpace + run) % 2 ^ 64
    offsetWithinRegion := (sect.offsetWithinRegion + run) % 2 ^ 64 }

/-- `flatview_add_to_dispatch` from an aligned start: whole pages, and a part. -/
def addAligned (d : AddressSpaceDispatch) (remain : MemoryRegionSection) :
    Option AddressSpaceDispatch := do
  if remain.size ≥ page.size then
    let now := { remain with size := remain.size - remain.size % page.size }
    let d ← registerMultipage page d now
    if remain.size = now.size then return d
    let run ← int128Get64 now.size
    registerSubpage page d (remain.advance run)
  else registerSubpage page d remain

/-- A section, split at page boundaries. -/
def flatviewAddToDispatch (d : AddressSpaceDispatch) (sect : MemoryRegionSection) :
    Option AddressSpaceDispatch := do
  if sect.offsetWithinAddressSpace % page.size ≠ 0 then
    let left :=
      (page.align sect.offsetWithinAddressSpace + 2 ^ 64 - sect.offsetWithinAddressSpace) % 2 ^ 64
    let now := { sect with size := min left sect.size }
    let d ← registerSubpage page d now
    if sect.size = now.size then return d
    let run ← int128Get64 now.size
    addAligned page d (sect.advance run)
  else addAligned page d sect

/-- The section of everything that no range contains. -/
def unassignedSection : MemoryRegionSection :=
  { mr := .ioMemUnassigned, offsetWithinRegion := 0, size := 2 ^ 64, offsetWithinAddressSpace := 0,
    readonly := false, nonvolatile := false }

/-- With the hint for node arrays. -/
def addressSpaceDispatchNew (allocHint : Nat) : Option AddressSpaceDispatch := do
  let (n, d) ← physSectionAdd page ⟨.empty 1, ⟨0, 0, allocHint⟩, [], []⟩ unassignedSection
  if n = physSectionUnassigned then some d else none

/-- The dispatch part of `generate_memory_topology`, before compaction. -/
def buildDispatch (allocHint : Nat) (view : FlatView) : Option AddressSpaceDispatch := do
  let d ← addressSpaceDispatchNew page allocHint
  view.foldlM (fun d fr => do
    let sect ← sectionFromFlatRange fr
    flatviewAddToDispatch page d sect) d

/-- Skip single children. -/
def addressSpaceDispatchCompact (d : AddressSpaceDispatch) : AddressSpaceDispatch :=
  { d with physMap := physPageCompact d.physMap }

/-- The end of a lookup, from the section of a page to that of a byte. -/
def resolveByte (d : AddressSpaceDispatch) (n addr : Nat) (resolveSubpage : Bool) : Option Nat := do
  let sect ← d.sections[n]?
  match sect.mr with
  | .subpage number =>
    if resolveSubpage then do
      let mmio ← d.subpages[number]?
      return mmio.subSection (addr % page.size)
    else return n
  | _ => return n

/-- The number of the section, and the new content of the cache of the last section. -/
def addressSpaceLookupRegion (d : AddressSpaceDispatch) (mruSection : Option Nat) (addr : Nat)
    (resolveSubpage : Bool) : Option (Nat × Option Nat) := do
  let cached := mruSection.filter fun n =>
    n ≠ physSectionUnassigned && (d.sections[n]?.any fun sect => sectionCoversAddr sect addr)
  let (n, mruSection) ←
    match cached with
    | some n => some (n, mruSection)
    | none => do
      let n ← physPageFind page d addr
      some (n, some n)
  let n ← resolveByte page d n addr resolveSubpage
  return (n, mruSection)

/-- The content of the cache after a list of lookups. -/
def mruAfter (d : AddressSpaceDispatch) : Option Nat → List (Nat × Bool) → Option (Option Nat)
  | mruSection, [] => some mruSection
  | mruSection, (addr, resolveSubpage) :: later => do
    let (_, mruSection) ← addressSpaceLookupRegion page d mruSection addr resolveSubpage
    mruAfter d mruSection later

end Qemu.Exec
