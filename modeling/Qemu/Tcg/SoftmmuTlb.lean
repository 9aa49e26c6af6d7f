import Qemu.Lib.HighMask

/-! The softmmu TLB of one MMU index: a direct-mapped table, a victim table, one region for large
pages. -/

namespace Qemu.Softmmu

open HighMask BitVec Function

/-- `TARGET_LONG_BITS`, `TARGET_PAGE_BITS` and `TARGET_PAGE_BITS_MIN`. -/
structure Target where
  longBits : Nat
  pageBits : Nat
  pageBitsMin : Nat
  page_lt : pageBits < longBits
  min_le : pageBitsMin ≤ pageBits
  /-- The six TLB flags fit below the smallest page. -/
  flags_fit : 6 ≤ pageBitsMin

namespace Target

variable (t : Target)

/-- `target_ulong`. -/
abbrev Addr := BitVec t.longBits

/-- `TARGET_PAGE_MASK`. -/
def pageMask : t.Addr := highMask t.longBits t.pageBits

/-- `TARGET_PAGE_SIZE`. -/
def pageSize : t.Addr := twoPow t.longBits t.pageBits

/-- A TLB flag, by its distance from `TARGET_PAGE_BITS_MIN`. -/
def tlbFlag (distance : Nat) : t.Addr := twoPow t.longBits (t.pageBitsMin - distance)

def tlbInvalidMask : t.Addr := t.tlbFlag 1

def tlbNotdirty : t.Addr := t.tlbFlag 2

def tlbMmio : t.Addr := t.tlbFlag 3

def tlbWatchpoint : t.Addr := t.tlbFlag 4

def tlbBswap : t.Addr := t.tlbFlag 5

def tlbDiscardWrite : t.Addr := t.tlbFlag 6

end Target

variable {t : Target} {Attrs : Type}

structure CPUTLBEntry (t : Target) where
  addrRead : t.Addr
  addrWrite : t.Addr
  addrCode : t.Addr
  addend : BitVec 64

def CPUTLBEntry.empty : CPUTLBEntry t where
  addrRead := allOnes _
  addrWrite := allOnes _
  addrCode := allOnes _
  addend := allOnes _

/-- The address of an entry that an access compares, `elt_ofs`. -/
inductive Elt where
  | read
  | write
  | code
deriving DecidableEq

/-- An address of an entry. -/
def CPUTLBEntry.elt (e : CPUTLBEntry t) : Elt → t.Addr
  | .read => e.addrRead
  | .write => e.addrWrite
  | .code => e.addrCode

structure CPUIOTLBEntry (Attrs : Type) where
  addr : BitVec 64
  attrs : Attrs

/-- The TLB of one MMU index, `CPUTLBDesc` and `CPUTLBDescFast`. -/
structure CPUTLB (t : Target) (Attrs : Type) where
  nEntries : Nat
  table : Nat → CPUTLBEntry t
  iotlb : Nat → CPUIOTLBEntry Attrs
  largePageAddr : t.Addr
  largePageMask : t.Addr
  vindex : Nat
  vtable : Fin 8 → CPUTLBEntry t
  viotlb : Fin 8 → CPUIOTLBEntry Attrs

def tlbHitPage (tlbAddr addr : t.Addr) : Bool :=
  addr == tlbAddr &&& (t.pageMask ||| t.tlbInvalidMask)

def tlbHitPageAnyprot (e : CPUTLBEntry t) (page : t.Addr) : Bool :=
  tlbHitPage e.addrRead page || tlbHitPage e.addrWrite page || tlbHitPage e.addrCode page

def tlbEntryIsEmpty (e : CPUTLBEntry t) : Bool :=
  e.addrRead == allOnes _ && e.addrWrite == allOnes _ && e.addrCode == allOnes _

def tlbIndex (tlb : CPUTLB t Attrs) (addr : t.Addr) : Nat :=
  (addr >>> t.pageBits).toNat &&& (tlb.nEntries - 1)

def tlbFlushEntryLocked (e : CPUTLBEntry t) (page : t.Addr) : CPUTLBEntry t :=
  if tlbHitPageAnyprot e page then .empty else e

def tlbFlushVtlbPageLocked (tlb : CPUTLB t Attrs) (page : t.Addr) : CPUTLB t Attrs :=
  { tlb with vtable := fun k => tlbFlushEntryLocked (tlb.vtable k) page }

/-- The resize chooses a size, `tlb_mmu_flush_locked` empties both tables. -/
def tlbFlushOneMmuidxLocked (tlb : CPUTLB t Attrs) (nEntries : Nat) : CPUTLB t Attrs :=
  { tlb with
    nEntries
    largePageAddr := allOnes _
    largePageMask := allOnes _
    vindex := 0
    table := fun _ => .empty
    vtable := fun _ => .empty }

/-- With the size that a forced full flush would choose. -/
def tlbFlushPageLocked (tlb : CPUTLB t Attrs) (page : t.Addr) (nEntries : Nat) : CPUTLB t Attrs :=
  if page &&& tlb.largePageMask = tlb.largePageAddr then tlbFlushOneMmuidxLocked tlb nEntries
  else
    let index := tlbIndex tlb page
    tlbFlushVtlbPageLocked
      { tlb with table := update tlb.table index (tlbFlushEntryLocked (tlb.table index) page) } page

/-- The loop of `tlb_add_large_page`: the mask is zero after as many shifts as bits. -/
def growMask (difference : t.Addr) : Nat → t.Addr → t.Addr
  | 0, mask => mask
  | shifts + 1, mask => if difference &&& mask ≠ 0 then growMask difference
      shifts (mask <<< 1) else mask

def tlbAddLargePage (tlb : CPUTLB t Attrs) (vaddr size : t.Addr) : CPUTLB t Attrs :=
  let lpMask := ~~~(size - 1)
  if tlb.largePageAddr = allOnes _ then
    { tlb with largePageAddr := vaddr &&& lpMask, largePageMask := lpMask }
  else
    let lpMask := growMask (tlb.largePageAddr ^^^ vaddr) t.longBits (lpMask &&& tlb.largePageMask)
    { tlb with largePageAddr := tlb.largePageAddr &&& lpMask, largePageMask := lpMask }

/-- What `tlb_set_page_with_attrs` learns about the physical page. -/
structure Translation (Attrs : Type) where
  attrs : Attrs
  byteSwap : Bool
  protRead : Bool
  protWrite : Bool
  protExec : Bool
  /-- `PAGE_WRITE_INV`. -/
  protWriteInv : Bool
  isRam : Bool
  isRomd : Bool
  readonly : Bool
  isClean : Bool
  wpRead : Bool
  wpWrite : Bool
  addend : BitVec 64
  iotlb : BitVec 64

/-- The address with which loads and fetches hit, before the kind is known. -/
def baseAddress (vaddrPage size : t.Addr) (tr : Translation Attrs) : t.Addr :=
  let address := if size < t.pageSize then vaddrPage ||| t.tlbInvalidMask else vaddrPage
  if tr.byteSwap then address ||| t.tlbBswap else address

def writeAddress (vaddrPage size : t.Addr) (tr : Translation Attrs) : t.Addr :=
  let address := baseAddress vaddrPage size tr
  if tr.isRam then
    if tr.protWrite then
      if tr.readonly then address ||| t.tlbDiscardWrite
      else if tr.isClean then address ||| t.tlbNotdirty
      else address
    else address
  else address ||| t.tlbMmio

/-- `address`. -/
def readAddress (vaddrPage size : t.Addr) (tr : Translation Attrs) : t.Addr :=
  if tr.isRam || tr.isRomd then baseAddress vaddrPage size tr else writeAddress vaddrPage size tr

def newEntry (vaddrPage size : t.Addr) (tr : Translation Attrs) : CPUTLBEntry t where
  addrRead :=
    if tr.protRead then
      if tr.wpRead then readAddress vaddrPage size tr ||| t.tlbWatchpoint
        else readAddress vaddrPage size tr
    else allOnes _
  addrWrite :=
    if tr.protWrite then
      let address := writeAddress vaddrPage size tr
      let address := if tr.protWriteInv then address ||| t.tlbInvalidMask else address
      if tr.wpWrite then address ||| t.tlbWatchpoint else address
    else allOnes _
  addrCode := if tr.protExec then readAddress vaddrPage size tr else allOnes _
  addend := tr.addend - (vaddrPage.setWidth 64)

/-- The old entry of another page goes to the victim table. -/
def evict (tlb : CPUTLB t Attrs) (index : Nat) (vaddrPage : t.Addr) : CPUTLB t Attrs :=
  let te := tlb.table index
  if !tlbHitPageAnyprot te vaddrPage && !tlbEntryIsEmpty te then
    let vidx : Fin 8 := Fin.ofNat 8 tlb.vindex
    { tlb with
      vindex := tlb.vindex + 1
      vtable := update tlb.vtable vidx te
      viotlb := update tlb.viotlb vidx (tlb.iotlb index) }
  else tlb

def tlbSetPageWithAttrs (tlb : CPUTLB t Attrs) (vaddr size : t.Addr)
    (tr : Translation Attrs) : CPUTLB t Attrs :=
  let tlb := if size ≤ t.pageSize then tlb else tlbAddLargePage tlb vaddr size
  let vaddrPage := vaddr &&& t.pageMask
  let index := tlbIndex tlb vaddrPage
  let tlb := evict (tlbFlushVtlbPageLocked tlb vaddrPage) index vaddrPage
  { tlb with
    iotlb := update tlb.iotlb index ⟨tr.iotlb - vaddrPage.setWidth 64, tr.attrs⟩
    table := update tlb.table index (newEntry vaddrPage size tr) }

/-- Without its result: the first victim with the address is swapped in. -/
def victimTlbHit (tlb : CPUTLB t Attrs) (index : Nat) (elt : Elt)
    (page : t.Addr) : CPUTLB t Attrs :=
  match (List.finRange 8).find? fun vidx => (tlb.vtable vidx).elt elt == page with
  | none => tlb
  | some vidx =>
    { tlb with
      table := update tlb.table index (tlb.vtable vidx)
      vtable := update tlb.vtable vidx (tlb.table index)
      iotlb := update tlb.iotlb index (tlb.viotlb vidx)
      viotlb := update tlb.viotlb vidx (tlb.iotlb index) }

/-- A page size: at most the base size, or a power of two. -/
structure PageSize (t : Target) where
  size : t.Addr
  isPage : size ≤ t.pageSize ∨ ∃ k, size = twoPow t.longBits k

/-- A mapping that was installed. -/
structure Mapping (t : Target) where
  vaddr : t.Addr
  pageSize : PageSize t

/-- A page of a mapping: its base page, or the aligned range of its size. -/
def Mapping.Covers (m : Mapping t) (page : t.Addr) : Prop :=
  if m.pageSize.size ≤ t.pageSize then page = m.vaddr &&& t.pageMask
  else page &&& ~~~(m.pageSize.size - 1) = m.vaddr &&& ~~~(m.pageSize.size - 1)

/-- What is done to the TLB. -/
inductive Op (t : Target) (Attrs : Type) where
  | setPage (mapping : Mapping t) (tr : Translation Attrs)
  /-- The slow path of an access to an address looks into the victim table. -/
  | victimHit (elt : Elt) (addr : t.Addr)
  /-- A flush of the page of an address. -/
  | flushPage (addr : t.Addr) (nEntries : Nat)
  | flush (nEntries : Nat)

/-- The TLB, and the mappings that were installed since its last full flush. -/
structure State (t : Target) (Attrs : Type) where
  tlb : CPUTLB t Attrs
  installed : List (Mapping t)

/-- One operation. A page flush may be a full one. -/
def step (s : State t Attrs) : Op t Attrs → State t Attrs
  | .setPage m tr => ⟨tlbSetPageWithAttrs s.tlb m.vaddr m.pageSize.size tr, m :: s.installed⟩
  | .victimHit elt addr => ⟨victimTlbHit s.tlb (tlbIndex s.tlb addr) elt (addr &&& t.pageMask),
      s.installed⟩
  | .flushPage addr nEntries =>
    let page := addr &&& t.pageMask
    ⟨tlbFlushPageLocked s.tlb page nEntries,
      if page &&& s.tlb.largePageMask = s.tlb.largePageAddr then [] else s.installed⟩
  | .flush nEntries => ⟨tlbFlushOneMmuidxLocked s.tlb nEntries, []⟩

/-- The TLB after `tlb_mmu_init`: what is not read before it is written is arbitrary. -/
def initial (nEntries : Nat) (iotlb : Nat → CPUIOTLBEntry Attrs)
    (viotlb : Fin 8 → CPUIOTLBEntry Attrs) : State t Attrs where
  tlb := {
    nEntries
    table := fun _ => .empty
    iotlb
    largePageAddr := allOnes _
    largePageMask := allOnes _
    vindex := 0
    vtable := fun _ => .empty
    viotlb }
  installed := []

end Qemu.Softmmu
