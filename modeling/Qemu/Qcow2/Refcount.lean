import Qemu.Qcow2.RefcountBits
import Qemu.Lib.Align

/-! Host clusters of a qcow2 image and their refcounts: the table, its blocks, and what changes
them. -/

namespace Qemu.Qcow2

open Align

/-- The cluster size and the refcount order of an image. -/
structure Geometry where
  clusterBits : Nat
  refcountOrder : Fin 7
  /-- `MIN_CLUSTER_BITS`. -/
  clusterBits_ge : 9 ≤ clusterBits
  /-- `MAX_CLUSTER_BITS`. -/
  clusterBits_le : clusterBits ≤ 21

namespace Geometry

variable (g : Geometry)

def clusterSize : Nat := 2 ^ g.clusterBits

def refcountBlockBits : Nat := g.clusterBits + 3 - g.refcountOrder

/-- The number of refcounts in a block. -/
def refcountBlockSize : Nat := 2 ^ g.refcountBlockBits

def refcountMax : BitVec 64 := BitVec.ofNat 64 (2 ^ 2 ^ g.refcountOrder.val - 1)

/-- The number of entries of the refcount table in a cluster. -/
def tableEntries : Nat := g.clusterSize / 8

def getRefcount : RefcountBlock → Nat → BitVec 64 := getRefcountFuncs g.refcountOrder

def setRefcount : RefcountBlock → Nat → BitVec 64 → RefcountBlock :=
  setRefcountFuncs g.refcountOrder

end Geometry

def qcowMaxReftableSize : Nat := 8 * 1024 * 1024

def qcowMaxClusterOffset : Nat := 2 ^ 56 - 1

def int64Max : Nat := 2 ^ 63 - 1

/-- The errors of these functions when there is no I/O error. -/
inductive Errno where
  | eio
  | einval
  | eagain
  | efbig
  | enomem
deriving DecidableEq

/-- The part of `BDRVQcow2State` that counts references. Blocks that are changed but not written are
in the block cache, which has room for all. -/
structure State where
  refcountTable : Nat → Nat
  refcountTableSize : Nat
  refcountTableOffset : Nat
  maxRefcountTableIndex : Nat
  freeClusterIndex : Nat
  disk : Nat → RefcountBlock
  dirty : Nat → Option RefcountBlock

namespace State

variable (s : State)

/-- A refcount block as `qcow2_cache_get` finds it. -/
def block (offset : Nat) : RefcountBlock := (s.dirty offset).getD (s.disk offset)

/-- Change a block in the cache, and mark it dirty. -/
def setBlock (offset : Nat) (block : RefcountBlock) : State :=
  { s with dirty := Function.update s.dirty offset (some block) }

/-- Write all changed blocks, `qcow2_cache_flush`. -/
def cacheFlush : State := { s with disk := s.block, dirty := fun _ => none }

/-- Forget a block that the cache has, `qcow2_cache_discard`. -/
def cacheDiscard (offset : Nat) : State := { s with dirty := Function.update s.dirty offset none }

end State

/-- How a call ends: with an error or a result and a state, or with nothing if it has more turns
than it was given or an assertion fails. -/
abbrev Outcome (α : Type) := Option (Except Errno α × State)

/-- Go on after a call that did not fail. -/
def Outcome.andThen {α β : Type} (outcome : Outcome α) (next : α → State → Outcome β) : Outcome β :=
  match outcome with
  | none => none
  | some (.error errno, s) => some (.error errno, s)
  | some (.ok value, s) => next value s

/-- The offset in an entry of the refcount table, by `REFT_OFFSET_MASK`. -/
def reftOffset (entry : Nat) : Nat := entry / 512 * 512

/-- The offset of a refcount block that the table has. -/
def State.lookup (s : State) (index : Nat) : Option Nat :=
  if index < s.refcountTableSize ∧ reftOffset (s.refcountTable index) ≠ 0
    then some (reftOffset (s.refcountTable index))
  else none

variable (g : Geometry)

def qcow2GetRefcount (s : State) (clusterIndex : Nat) : Except Errno (BitVec 64) :=
  match s.lookup (clusterIndex / g.refcountBlockSize) with
  | none => .ok 0#64
  | some offset =>
    if offset % g.clusterSize ≠ 0 then .error .eio
    else .ok (g.getRefcount (s.block offset) (clusterIndex % g.refcountBlockSize))

/-- The loop of `alloc_clusters_noref`, with the free clusters found in a row and the next one to
look at. The turns are enough, as everything past the table is free. -/
def searchFree (s : State) (nbClusters : Nat) : Nat → Nat → Nat → Option (Except Errno Unit × Nat)
  | turns, found, next =>
    if found = nbClusters then some (.ok (), next)
    else match turns with
      | 0 => none
      | turns + 1 =>
        match qcow2GetRefcount g s next with
        | .error errno => some (.error errno, next + 1)
        | .ok refcount => if refcount = 0#64 then searchFree s nbClusters
            turns (found + 1) (next + 1)
          -- The clusters have to be consecutive.
          else searchFree s nbClusters turns 0 (next + 1)

/-- The number of clusters for a number of bytes. -/
def sizeToClusters (size : Nat) : Nat := (size + (g.clusterSize - 1)) % 2 ^ 64 / g.clusterSize

/-- Find clusters that are free. -/
def allocClustersNoref (s : State) (size max : Nat) : Outcome Nat :=
  let nbClusters := sizeToClusters g size
  let turns := s.refcountTableSize * g.refcountBlockSize - s.freeClusterIndex + nbClusters
  match searchFree g s nbClusters turns 0 s.freeClusterIndex with
  | none => none
  | some (result, next) =>
    let s := { s with freeClusterIndex := next }
    match result with
    | .error errno => some (.error errno, s)
    | .ok () =>
      if next > 0 ∧ next - 1 > max / g.clusterSize then some (.error .efbig, s)
      else some (.ok ((next - nbClusters) * g.clusterSize), s)

variable (tryNew0 : Nat → Bool)

/-- A function that changes the refcounts of a range, such as `update_refcount`. -/
abbrev Update := State → Nat → Int → BitVec 64 → Bool → Outcome Unit

def divRoundUp (n d : Nat) : Nat := (n + d - 1) / d

/-- The loop of `qcow2_refcount_metadata_size`: the numbers of blocks and table clusters. -/
def metadataLoop (refcountsPerBlock blocksPerTableCluster : Nat) :
    Nat → Nat → Nat → Nat → Nat → Bool → Option (Nat × Nat)
  | 0, _, _, _, _, _ => none
  | turns + 1, clusters, table, blocks, last, generousIncrease =>
    let blocks := divRoundUp (clusters + table + blocks) refcountsPerBlock
    let table := divRoundUp blocks blocksPerTableCluster
    let n := clusters + blocks + table
    if n = last ∧ generousIncrease then
      -- The loop is forced to go on, unless there is nothing to be counted.
      if last = 0 then some (blocks, table)
      else metadataLoop refcountsPerBlock blocksPerTableCluster turns
        (clusters + divRoundUp table 2) table blocks 0 false
    else if n = last then some (blocks, table)
    else metadataLoop refcountsPerBlock blocksPerTableCluster turns clusters table
      blocks n generousIncrease

/-- The refcount blocks and table clusters that cover some clusters and themselves. -/
def qcow2RefcountMetadataSize (clusters : Nat) (generousIncrease : Bool) : Option (Nat × Nat) :=
  metadataLoop (g.clusterSize * 8 / 2 ^ g.refcountOrder.val) g.tableEntries (4 * clusters + 16)
    clusters 0 0 0 generousIncrease

/-- Set some refcounts in a row to one, if they are zero. -/
def setOnes (block : RefcountBlock) (j : Nat) : Nat → Option RefcountBlock
  | 0 => some block
  | count + 1 => if g.getRefcount block j = 0#64
      then setOnes (g.setRefcount block j 1#64) (j + 1) count else none

/-- The loop of `qcow2_refcount_area` over the blocks from one on, with the table and the place of
the next new block. -/
def fillBlocks (startOffset endOffset areaReftableIndex : Nat) :
    Nat → Nat → (Nat → Nat) → Nat → State → Option ((Nat → Nat) × Nat × State)
  | 0, _, table, blockOffset, s => some (table, blockOffset, s)
  | count + 1, i, table, blockOffset, s =>
    -- Reuse an existing block if possible, create a new one otherwise.
    let isNew := table i = 0
    let offset := if isNew then blockOffset else table i
    let data : RefcountBlock := if isNew then fun _ => 0#8 else s.block offset
    let table := if isNew then Function.update table i blockOffset else table
    let blockOffset := if isNew then blockOffset + g.clusterSize else blockOffset
    let firstOffsetCovered := i * g.refcountBlockSize * g.clusterSize
    if firstOffsetCovered < endOffset then
      let j := if firstOffsetCovered < startOffset
        then (startOffset - firstOffsetCovered) / g.clusterSize else 0
      let endIndex := min ((endOffset - firstOffsetCovered) / g.clusterSize) g.refcountBlockSize
      if firstOffsetCovered < startOffset ∧
        (i ≠ areaReftableIndex ∨ g.refcountBlockSize ≤ j) then none
      else match setOnes g data j (endIndex - j) with
        | none => none
        | some data =>
          fillBlocks startOffset endOffset areaReftableIndex count (i + 1) table
            blockOffset (s.setBlock offset data)
    else
      fillBlocks startOffset endOffset areaReftableIndex count (i + 1) table blockOffset
        (if isNew then s.setBlock offset data else s)

/-- The loop of `update_max_refcount_table_index`. -/
def lastUsedIndex (table : Nat → Nat) : Nat → Nat
  | 0 => 0
  | i + 1 => if reftOffset (table (i + 1)) = 0 then lastUsedIndex table i else i + 1

/-- Create refcount structures that cover themselves. -/
def qcow2RefcountArea (update : Update) (s : State)
    (startOffset additionalClusters : Nat) (exactSize : Bool)
    (newRefblockIndex newRefblockOffset : Nat) : Outcome Nat :=
  if startOffset % g.clusterSize ≠ 0 then none
  else match qcow2RefcountMetadataSize g (startOffset / g.clusterSize + additionalClusters)
      !exactSize with
    | none => none
    | some (totalRefblockCount, _) =>
      if totalRefblockCount > qcowMaxReftableSize then some (.error .efbig, s)
      else
        let areaReftableIndex := startOffset / g.clusterSize / g.refcountBlockSize
        let entries := if exactSize then totalRefblockCount else totalRefblockCount +
          divRoundUp totalRefblockCount 2
        let tableSize := ceilTo g.tableEntries entries
        let tableClusters := tableSize * 8 / g.clusterSize
        if tableSize > qcowMaxReftableSize then some (.error .efbig, s)
        else if tableSize = 0 then none
        else if !tryNew0 tableSize then some (.error .enomem, s)
        else
          let copied := if tableSize > s.maxRefcountTableIndex
            then s.maxRefcountTableIndex + 1 else tableSize
          let newTable : Nat → Nat := fun i => if i < copied then s.refcountTable i else 0
          if newRefblockOffset ≠ 0 ∧ totalRefblockCount ≤ newRefblockIndex then none
          else
            let newTable :=
              if newRefblockOffset ≠ 0 then Function.update newTable newRefblockIndex
                newRefblockOffset else newTable
            let additionalRefblockCount :=
              ((List.range' areaReftableIndex (totalRefblockCount - areaReftableIndex)).filter
                fun i => newTable i = 0).length
            let tableOffset := startOffset + additionalRefblockCount * g.clusterSize
            let endOffset := tableOffset + tableClusters * g.clusterSize
            match fillBlocks g startOffset endOffset areaReftableIndex
              (totalRefblockCount - areaReftableIndex) areaReftableIndex newTable startOffset s with
            | none => none
            | some (newTable, blockOffset, filled) =>
              if blockOffset ≠ tableOffset then none
              else
                let switched : State :=
                  { filled.cacheFlush with
                    refcountTable := newTable
                    refcountTableSize := tableSize
                    refcountTableOffset := tableOffset
                    maxRefcountTableIndex := lastUsedIndex newTable (tableSize - 1) }
                -- Whether the old table can be freed does not matter.
                match update switched s.refcountTableOffset (s.refcountTableSize * 8) 1#64 true with
                | none => none
                | some (_, freed) => some (.ok endOffset, freed)

/-- Whether two offsets are described by the same block. -/
def inSameRefcountBlock (offsetA offsetB : Nat) : Bool :=
  offsetA / (g.clusterSize * g.refcountBlockSize) = offsetB / (g.clusterSize * g.refcountBlockSize)

/-- Count a new refcount block, and clear it. -/
def describeBlock (update : Update) (s : State) (clusterIndex newBlock : Nat) : Outcome Unit :=
  if inSameRefcountBlock g newBlock (clusterIndex * g.clusterSize) then
    -- The block describes itself.
    some (.ok (), s.setBlock newBlock
      (g.setRefcount (fun _ => 0#8) (newBlock / g.clusterSize % g.refcountBlockSize) 1#64))
  else Outcome.andThen (update s newBlock g.clusterSize 1#64 false) fun _ s =>
    some (.ok (), s.cacheFlush.setBlock newBlock fun _ => 0#8)

/-- Enter a new refcount block into the table, which grows if need be. -/
def enterBlock (update : Update) (s : State) (clusterIndex refcountTableIndex newBlock : Nat) :
    Outcome Nat :=
  if refcountTableIndex < s.refcountTableSize then
    -- The caller may have wanted to use the cluster of the new block.
    some (.error .eagain, { s with
      refcountTable := Function.update s.refcountTable refcountTableIndex newBlock
      maxRefcountTableIndex := max s.maxRefcountTableIndex refcountTableIndex })
  else
    let blocksUsed :=
      divRoundUp (max (clusterIndex + 1) (newBlock / g.clusterSize + 1)) g.refcountBlockSize
    Outcome.andThen (qcow2RefcountArea g tryNew0 update s
      (blocksUsed * g.refcountBlockSize * g.clusterSize) 0 false
      refcountTableIndex newBlock) fun _ s => some (.error .eagain, s)

/-- Find a refcount block, and create it if there is none. -/
def allocRefcountBlock (update : Update) (s : State) (clusterIndex : Nat) : Outcome Nat :=
  -- The index is an `unsigned int`.
  let refcountTableIndex := clusterIndex / g.refcountBlockSize % 2 ^ 32
  match s.lookup refcountTableIndex with
  | some offset => if offset % g.clusterSize ≠ 0 then some (.error .eio, s)
      else some (.ok offset, s)
  | none =>
    Outcome.andThen (allocClustersNoref g s g.clusterSize int64Max) fun newBlock s =>
      if newBlock = 0 then some (.error .eio, s)
      else Outcome.andThen (describeBlock g update s clusterIndex newBlock) fun _ s =>
        enterBlock g tryNew0 update s.cacheFlush clusterIndex refcountTableIndex newBlock

/-- Whether a refcount cannot be changed. -/
def cannotChange (refcount addend : BitVec 64) (decrease : Bool) : Bool :=
  if decrease then refcount - addend > refcount else refcount + addend < refcount ||
    refcount + addend > g.refcountMax

/-- Change one refcount, and what follows from that in `update_refcount`. -/
def changeRefcount (offset clusterIndex block : Nat) (addend : BitVec 64) (decrease : Bool)
    (loaded : Option (Nat × Nat)) (s : State) : Option (Nat × Nat) × State :=
  let blockIndex := clusterIndex % g.refcountBlockSize
  let old := g.getRefcount (s.block block) blockIndex
  let refcount := if decrease then old - addend else old + addend
  let s := { s with
    freeClusterIndex := if refcount = 0#64 ∧ clusterIndex < s.freeClusterIndex then clusterIndex
      else s.freeClusterIndex }
  let s := s.setBlock block (g.setRefcount (s.block block) blockIndex refcount)
  -- The cache is asked for the start of the range, whichever cluster has become free.
  if refcount = 0#64 ∧ (s.dirty offset).isSome then (none, s.cacheDiscard offset) else (loaded, s)

/-- The refcount block for a cluster, unless it is the one that is loaded. -/
def loadBlock (alloc : State → Nat → Outcome Nat) (loaded : Option (Nat × Nat))
    (clusterIndex : Nat) (s : State) : Outcome Nat :=
  match loaded with
  | some (index, block) => if index = clusterIndex / g.refcountBlockSize then some (.ok block, s)
      else alloc s clusterIndex
  | none => alloc s clusterIndex

/-- The loop of `update_refcount` over the clusters from one on, with the index and the offset of
the loaded block; if it fails, it says where. -/
def updateClusters (alloc : State → Nat → Outcome Nat) (offset : Nat) (addend : BitVec 64)
    (decrease : Bool) : Nat → Nat → Option (Nat × Nat) → State →
    Option (Except (Errno × Nat) Unit × State)
  | 0, _, _, s => some (.ok (), s)
  | remaining + 1, clusterIndex, loaded, s =>
    match loadBlock g alloc loaded clusterIndex s with
    | none => none
    | some (.error errno, s) =>
      -- The same clusters are tried first when the search is restarted.
      let first := offset / g.clusterSize
      let s := if errno = .eagain ∧ s.freeClusterIndex > first then { s with
        freeClusterIndex := first } else s
      some (.error (errno, clusterIndex), s)
    | some (.ok block, s) =>
      if cannotChange g (g.getRefcount (s.block block) (clusterIndex % g.refcountBlockSize)) addend
        decrease then some (.error (.einval, clusterIndex), s)
      else
        let (loaded, s) := changeRefcount g offset clusterIndex block addend decrease
          (some (clusterIndex / g.refcountBlockSize, block)) s
        updateClusters alloc offset addend decrease remaining (clusterIndex + 1) loaded s

/-- `update_refcount` on a range, down to a depth of recursion. -/
def updateRefcount : Nat → Update
  | 0 => fun _ _ _ _ _ => none
  | depth + 1 => fun s offset length addend decrease =>
    if length < 0 then some (.error .einval, s)
    else if length = 0 then some (.ok (), s)
    else
      let first := offset / g.clusterSize
      let last := (offset + length.toNat - 1) / g.clusterSize
      match updateClusters g (allocRefcountBlock g tryNew0 (updateRefcount depth)) offset
        addend decrease (last - first + 1) first none s with
      | none => none
      | some (.ok (), s) => some (.ok (), s)
      | some (.error (errno, cluster), s) =>
        -- Undo the part that was done.
        match updateRefcount depth s offset (cluster * g.clusterSize - offset) addend !decrease with
        | none => none
        | some (_, s) => some (.error errno, s)

/-- A 64-bit number as a signed one. -/
def toInt64 (n : Nat) : Int := if n < 2 ^ 63 then n else n - 2 ^ 64

/-- Allocate clusters, `qcow2_alloc_clusters`, with a number of turns of its loop. -/
def qcow2AllocClusters (depth : Nat) : Nat → State → Nat → Outcome Nat
  | 0, _, _ => none
  | turns + 1, s, size =>
    Outcome.andThen (allocClustersNoref g s size qcowMaxClusterOffset) fun offset s =>
      match updateRefcount g tryNew0 depth s offset (toInt64 size) 1#64 false with
      | none => none
      | some (.ok (), s) => some (.ok offset, s)
      | some (.error errno, s) =>
        if errno = .eagain then qcow2AllocClusters depth turns s size else some (.error errno, s)

def qcow2FreeClusters (depth : Nat) (s : State) (offset size : Nat) : Option State :=
  (updateRefcount g tryNew0 depth s offset (toInt64 size) 1#64 true).map (·.2)

end Qemu.Qcow2
