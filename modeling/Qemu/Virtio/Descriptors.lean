import Mathlib.Data.BitVec

/-! Descriptors in guest memory, and how a device collects the buffers of a chain. -/

namespace Qemu.Virtio

/-- The most buffers in an element, and entries in a ring. -/
def virtqueueMaxSize : Nat := 1024

structure VRingDesc where
  addr : BitVec 64
  len : BitVec 32
  flags : BitVec 16
  next : BitVec 16

structure VRingPackedDesc where
  addr : BitVec 64
  len : BitVec 32
  id : BitVec 16
  flags : BitVec 16

/-- The size of a descriptor of either kind in bytes. -/
def sizeofDesc : Nat := 16

def vringDescFNext : BitVec 16 := 1#16

def vringDescFWrite : BitVec 16 := 2#16

def vringDescFIndirect : BitVec 16 := 4#16

/-- Some of the bits of a mask are set. -/
def hasFlag (flags mask : BitVec 16) : Bool := flags &&& mask ≠ 0#16

inductive DescTable where
  | ring
  | indirect (addr : BitVec 64)

/-- What a device reads from guest memory at one moment. -/
structure GuestMemory where
  availIdx : BitVec 16
  availRing : Nat → BitVec 16
  splitDesc : DescTable → Nat → VRingDesc
  packedDesc : DescTable → Nat → VRingPackedDesc

/-- The guest as the device meets it: memory may differ at every access, and mapped regions may be
smaller than asked for, or missing. -/
structure Guest where
  /-- The memory at each access of the operation. -/
  memory : Nat → GuestMemory
  /-- The length of the cached descriptor ring, if the region caches are initialised. -/
  caches : Option Nat
  /-- The length that `address_space_cache_init` returns. -/
  cacheInit : BitVec 64 → BitVec 32 → Int
  /-- The length that `dma_memory_map` maps, by the buffers mapped before. -/
  dmaMemoryMap : Nat → BitVec 64 → Nat → Option Nat

/-- A mapped buffer: its guest address and its length. -/
structure Sg where
  addr : BitVec 64
  len : Nat
deriving DecidableEq

/-- The buffers collected so far, and how many descriptors they come from. -/
structure Chain where
  out : List Sg
  ins : List Sg
  entries : Nat
deriving DecidableEq

def Chain.mapped (chain : Chain) : Nat := chain.out.length + chain.ins.length

/-- How collecting ends: with a value, with an error that unmaps buffers, or with an abort. -/
inductive Collected (α : Type) where
  | ok (value : α)
  | error (message : String) (undo : Chain)
  | aborts

/-- How mapping one descriptor ends; its buffers stay mapped after an error. -/
inductive Mapped where
  | ok (sgs : List Sg)
  | error (message : String) (sgs : List Sg)
  | aborts

/-- The loop of `virtqueue_map_desc`, with the buffers there is room for. -/
def mapLoop (guest : Guest) (before : Nat) : Nat → List Sg → BitVec 64 → Nat → Mapped
  | room, sgs, pa, sz =>
    if sz = 0 then .ok sgs
    else match room with
      | 0 => .error "virtio: too many write descriptors in indirect table" sgs
      | room + 1 => match guest.dmaMemoryMap (before + sgs.length) pa sz with
        | none => .error "virtio: bogus descriptor or out of resources" sgs
        | some len => mapLoop guest before room (sgs ++ [⟨pa, len⟩])
            (pa + BitVec.ofNat 64 len) (sz - len)

/-- Map the buffer of a descriptor after some others. -/
def virtqueueMapDesc (guest : Guest) (before : Nat) (sgs : List Sg) (maxNumSg : Nat)
    (pa : BitVec 64) (sz : Nat) : Mapped :=
  if maxNumSg < sgs.length then .aborts
  else if sz = 0 then .error "virtio: zero sized buffers are not allowed" sgs
  else mapLoop guest before (maxNumSg - sgs.length) sgs pa sz

/-- The fields that descriptors of both kinds have. -/
structure Buffer where
  addr : BitVec 64
  len : BitVec 32
  flags : BitVec 16

/-- Map one descriptor of a chain: buffers to write come after those to read. -/
def mapBuffer (guest : Guest) (chain : Chain) (buffer : Buffer) : Collected Chain :=
  if hasFlag buffer.flags vringDescFWrite then
    match virtqueueMapDesc guest chain.out.length chain.ins
      (virtqueueMaxSize - chain.out.length) buffer.addr buffer.len.toNat with
    | .ok ins => .ok { chain with ins }
    | .error message ins => .error message { chain with ins }
    | .aborts => .aborts
  else if chain.ins ≠ [] then .error "Incorrect order for descriptors" chain
  else match virtqueueMapDesc guest 0 chain.out virtqueueMaxSize buffer.addr buffer.len.toNat with
    | .ok out => .ok { chain with out }
    | .error message out => .error message { chain with out }
    | .aborts => .aborts

/-- What follows a descriptor in its chain, or that reading it fails an assertion. -/
inductive Next (D : Type) where
  | done
  | error (message : String)
  | more (desc : D) (i : Nat)
  | aborts

/-- The assertion of `address_space_read_cached`: a descriptor is read inside a cache of some
length. -/
def Next.cached {D : Type} (len : Nat) : Next D → Next D
  | .more desc i => if (i + 1) * sizeofDesc ≤ len then .more desc i else .aborts
  | next => next

/-- The loop that collects a chain in both kinds of rings; it is left when there are more
descriptors than entries. -/
def collectDescs {D : Type} (guest : Guest) (buffer : D → Buffer)
    (readNext : D → Nat → Nat → Next D) : Nat → Chain → D → Nat → Collected Chain
  | left, chain, desc, i =>
    match mapBuffer guest chain (buffer desc) with
    | .error message undo => .error message undo
    | .aborts => .aborts
    | .ok chain =>
      match left with
      | 0 => .error "Looped descriptor" chain
      | left + 1 =>
        let chain := { chain with entries := chain.entries + 1 }
        match readNext desc chain.entries i with
        | .done => .ok chain
        | .error message => .error message chain
        | .more desc i => collectDescs guest buffer readNext left chain desc i
        | .aborts => .aborts

def Chain.empty : Chain := ⟨[], [], 0⟩

def virtqueueSplitReadNextDesc (guest : Guest) (time : Nat) (table : DescTable)
    (max : Nat) (desc : VRingDesc) : Next VRingDesc :=
  if !hasFlag desc.flags vringDescFNext then .done
  else if desc.next.toNat ≥ max then .error s!"Desc next is {desc.next.toNat}"
  else .more ((guest.memory time).splitDesc table desc.next.toNat) desc.next.toNat

/-- Collect the chain at the head of a split ring, from a moment on. -/
def collectSplit (guest : Guest) (time num head : Nat) : Collected Chain :=
  let desc := (guest.memory time).splitDesc .ring head
  let collect table max desc i :=
    collectDescs guest (fun desc : VRingDesc => ⟨desc.addr, desc.len, desc.flags⟩)
    (fun desc entries _ => virtqueueSplitReadNextDesc guest (time + 1 + entries) table max desc) max
    .empty desc i
  if hasFlag desc.flags vringDescFIndirect then
    if desc.len = 0#32 ∨ desc.len.toNat % sizeofDesc ≠ 0
      then .error "Invalid size for indirect buffer table" .empty
    else if guest.cacheInit desc.addr desc.len < desc.len.toNat
      then .error "Cannot map indirect buffer" .empty
    else
      -- The chain goes on in the table that the descriptor points to.
      let table := DescTable.indirect desc.addr
      collect table (desc.len.toNat / sizeofDesc) ((guest.memory (time + 1)).splitDesc table 0) 0
  else collect .ring num desc head

def virtqueuePackedReadNextDesc (guest : Guest) (time : Nat) (table : DescTable)
    (num max : Nat) (indirect : Bool)
    (desc : VRingPackedDesc) (next : Nat) : Next VRingPackedDesc :=
  if !indirect && !hasFlag desc.flags vringDescFNext then .done
  else if next + 1 = max then
    if indirect then .done
    else .more ((guest.memory time).packedDesc table (next + 1 - num)) (next + 1 - num)
  else .more ((guest.memory time).packedDesc table (next + 1)) (next + 1)

/-- Collect the chain at an index of a packed ring, with whether it is indirect and its buffer id.
Every descriptor is read through a cache: that of the ring, which has some length, or that of the
indirect table. -/
def collectPacked (guest : Guest) (descLen time num i : Nat) :
    Collected (Chain × Bool × BitVec 16) :=
  let desc := (guest.memory time).packedDesc .ring i
  let collect table len max indirect desc' i :=
    match collectDescs guest (fun desc : VRingPackedDesc => ⟨desc.addr, desc.len, desc.flags⟩)
        (fun desc entries i =>
          (virtqueuePackedReadNextDesc guest (time + 1 + entries) table num max
            indirect desc i).cached len) max .empty desc' i with
    | .ok chain => Collected.ok (chain, indirect, desc.id)
    | .error message undo => .error message undo
    | .aborts => .aborts
  if descLen < (i + 1) * sizeofDesc then .aborts
  else if hasFlag desc.flags vringDescFIndirect then
    if desc.len.toNat % sizeofDesc ≠ 0 then .error "Invalid size for indirect buffer table" .empty
    -- The assertion of `address_space_cache_init`.
    else if desc.len = 0#32 then .aborts
    else if guest.cacheInit desc.addr desc.len < desc.len.toNat
      then .error "Cannot map indirect buffer" .empty
    else
      let table := DescTable.indirect desc.addr
      let len := (guest.cacheInit desc.addr desc.len).toNat
      if len < sizeofDesc then .aborts
      else collect table len (desc.len.toNat / sizeofDesc) true
        ((guest.memory (time + 1)).packedDesc table 0) 0
  else collect .ring descLen num false desc i

variable {guest : Guest} {D : Type} {buffer : D → Buffer} {readNext : D → Nat → Nat → Next D}

/-- Mapping a buffer counts no descriptor. -/
theorem mapBuffer_entries {chain mapped data} (ok : mapBuffer guest chain data = .ok mapped) :
    mapped.entries = chain.entries := by
  rw [mapBuffer] at ok
  split at ok
  · split at ok <;> simp_all only [Collected.ok.injEq, reduceCtorEq]
    rw [← ok]
  · split at ok
    · contradiction
    · split at ok <;> simp_all only [Collected.ok.injEq, reduceCtorEq]
      rw [← ok]

/-- A chain has at least one descriptor, and no more than there are entries. -/
theorem collectDescs_entries {left i chain res desc}
    (ok : collectDescs guest buffer readNext left chain desc i = .ok res) :
    chain.entries < res.entries ∧ res.entries ≤ chain.entries + left := by
  induction left generalizing chain desc i with
  | zero =>
    rw [collectDescs] at ok
    split at ok <;> contradiction
  | succ left ih =>
    rw [collectDescs] at ok
    split at ok
    case h_1 => contradiction
    case h_2 => contradiction
    case h_3 mapped mappedOk =>
      have entries := mapBuffer_entries mappedOk
      simp only at ok
      split at ok
      case h_1 =>
        obtain rfl := Collected.ok.inj ok
        simp only
        omega
      case h_2 => contradiction
      case h_3 =>
        have bounds := ih ok
        simp only at bounds
        omega
      case h_4 => contradiction

end Qemu.Virtio
