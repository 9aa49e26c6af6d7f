import Qemu.Memory.Region

/-! Rendering a tree of memory regions into a flat list: the first half of `softmmu/memory.c`. -/

namespace Qemu.Memory

/-- A range of the view; `offset_in_region` is modulo two to the 64. -/
structure FlatRange where
  mr : Nat
  offsetInRegion : Nat
  addr : AddrRange
  dirtyLogMask : BitVec 8
  romdMode : Bool
  readonly : Bool
  nonvolatile : Bool
  deriving DecidableEq

abbrev FlatView := List FlatRange

/-- Ranges that differ at most in logging. -/
def flatrangeEqual (a b : FlatRange) : Bool :=
  a.mr = b.mr && a.addr = b.addr && a.offsetInRegion = b.offsetInRegion &&
    a.romdMode = b.romdMode && a.readonly = b.readonly && a.nonvolatile = b.nonvolatile

/-- Whether the second range continues the first within one region. -/
def canMerge (r₁ r₂ : FlatRange) : Bool :=
  addrrangeEnd r₁.addr = r₂.addr.start && r₁.mr = r₂.mr &&
    (r₁.offsetInRegion : Int) + r₁.addr.size = r₂.offsetInRegion &&
    r₁.dirtyLogMask = r₂.dirtyLogMask && r₁.romdMode = r₂.romdMode && r₁.readonly = r₂.readonly &&
    r₁.nonvolatile = r₂.nonvolatile

/-- The loop of `render_memory_region` that fills the gaps of a view with one region. The template
`fr` carries all but the position; the range is `remain` long from `base`, where the region is at
`offset`. Ranges in the view hide the region, and every run is asserted to fit 64 bits. -/
def fillGaps (fr : FlatRange) (base : Int) (offset : Nat) (remain : Int) :
    FlatView → Option FlatView
  | [] =>
    if remain ≠ 0 then some [{ fr with offsetInRegion := offset, addr := ⟨base, remain⟩ }]
      else some []
  | range :: rest =>
    if remain = 0 then some (range :: rest)
    else if base ≥ addrrangeEnd range.addr then do
      let rest ← fillGaps fr base offset remain rest
      return range :: rest
    else if base < range.addr.start then do
      -- The gap before this range takes as much of the region as fits into it.
      let now := min remain (range.addr.start - base)
      let piece := { fr with offsetInRegion := offset, addr := ⟨base, now⟩ }
      let run ← int128Get64 now
      let base := base + now
      let offset := (offset + run) % 2 ^ 64
      let remain := remain - now
      -- Then the part hidden by this range is skipped.
      let now := min (base + remain) (addrrangeEnd range.addr) - base
      let run ← int128Get64 now
      let rest ← fillGaps fr (base + now) ((offset + run) % 2 ^ 64) (remain - now) rest
      return piece :: range :: rest
    else do
      let now := min (base + remain) (addrrangeEnd range.addr) - base
      let run ← int128Get64 now
      let rest ← fillGaps fr (base + now) ((offset + run) % 2 ^ 64) (remain - now) rest
      return range :: rest

/-- The end of `render_memory_region`: the region behind the view. -/
def renderSelf (globalDirtyLog : Bool) (info : RegionInfo) (content : ContentInfo) (view : FlatView)
    (base : Int) (clip : AddrRange) (readonly nonvolatile : Bool) : Option FlatView :=
  if content.terminates then do
    let offset ← int128Get64 (clip.start - base)
    let fr : FlatRange :=
      { mr := info.id, offsetInRegion := 0, addr := clip,
        dirtyLogMask := memoryRegionGetDirtyLogMask globalDirtyLog content,
        romdMode := content.romdMode, readonly := readonly, nonvolatile := nonvolatile }
    fillGaps fr clip.start offset clip.size view
  else some view

mutual

/-- Into a view whose ranges hide it. -/
def renderMemoryRegion (globalDirtyLog : Bool) :
    MemoryRegion → FlatView → Int → AddrRange → Bool → Bool → Option FlatView
  | .alias info aliasOffset _ target, view, base, clip, readonly, nonvolatile =>
    if !info.enabled then some view else
    let base := base + info.addr
    let range : AddrRange := ⟨base, info.size⟩
    if !addrrangeIntersects range clip then some view else
    -- The target is rendered at the position its own address will move it to.
    renderMemoryRegion globalDirtyLog target view (base - target.info.addr - aliasOffset)
      (addrrangeIntersection range clip) (readonly || info.readonly)
        (nonvolatile || info.nonvolatile)
  | .region info content subregions, view, base, clip, readonly, nonvolatile =>
    if !info.enabled then some view else
    let base := base + info.addr
    let range : AddrRange := ⟨base, info.size⟩
    if !addrrangeIntersects range clip then some view else do
    let clip := addrrangeIntersection range clip
    let readonly := readonly || info.readonly
    let nonvolatile := nonvolatile || info.nonvolatile
    -- Subregions come first, in priority order.
    let view ← renderSubregions globalDirtyLog subregions view base clip readonly nonvolatile
    renderSelf globalDirtyLog info content view base clip readonly nonvolatile

/-- The loop of `render_memory_region` over the subregions. -/
def renderSubregions (globalDirtyLog : Bool) :
    List MemoryRegion → FlatView → Int → AddrRange → Bool → Bool → Option FlatView
  | [], view, _, _, _, _ => some view
  | subregion :: rest, view, base, clip, readonly, nonvolatile => do
    let view ← renderMemoryRegion globalDirtyLog subregion view base clip readonly nonvolatile
    renderSubregions globalDirtyLog rest view base clip readonly nonvolatile

end

/-- The inner loop of `flatview_simplify`: `grown` absorbs each range that continues `last`, the one
before it. -/
def simplifyFrom (grown last : FlatRange) : FlatView → FlatView
  | [] => [grown]
  | range :: rest =>
    if canMerge last range then
      simplifyFrom { grown with
        addr := { grown.addr with size := grown.addr.size + range.addr.size } } range rest
    else grown :: simplifyFrom range range rest

/-- Adjacent ranges of one region become one. -/
def flatviewSimplify : FlatView → FlatView
  | [] => []
  | range :: rest => simplifyFrom range range rest

/-- The address space a view is clipped to. -/
def wholeSpace : AddrRange := ⟨0, twoTo64⟩

/-- `generate_memory_topology` of a region, or of none. -/
def generateMemoryTopology (globalDirtyLog : Bool) : Option MemoryRegion → Option FlatView
  | none => some (flatviewSimplify [])
  | some mr => do
    let view ← renderMemoryRegion globalDirtyLog mr [] 0 wholeSpace false false
    return flatviewSimplify view

end Qemu.Memory
