import Qemu.Lib.Tiling
import Qemu.Memory.FlatView

/-! What a region tree says of an address, and the view that agrees. -/

namespace Qemu.Memory

open Tiling Option FlatRange

/-- The answer of an address: the region, the offset, and the flags. -/
structure Resolution where
  mr : Nat
  offset : Int
  readonly : Bool
  nonvolatile : Bool
  deriving DecidableEq

mutual

/-- The tree's own answer at an offset within a region, below some flags; a level answers only
inside its extent. -/
def resolve : MemoryRegion → Int → Bool → Bool → Option Resolution
  | .alias info aliasOffset _ target, offset, readonly, nonvolatile =>
    if info.enabled ∧ 0 ≤ offset ∧ offset < info.size then
      resolve target (offset + aliasOffset) (readonly || info.readonly)
        (nonvolatile || info.nonvolatile)
    else none
  | .region info content subregions, offset, readonly, nonvolatile =>
    if info.enabled ∧ 0 ≤ offset ∧ offset < info.size then
      let readonly := readonly || info.readonly
      let nonvolatile := nonvolatile || info.nonvolatile
      -- The first subregion with an answer wins, and the region itself comes last.
      (resolveFirst subregions offset readonly nonvolatile).or
        (if content.terminates then some ⟨info.id, offset, readonly, nonvolatile⟩ else none)
    else none

/-- The first answer among subregions of a container. -/
def resolveFirst : List MemoryRegion → Int → Bool → Bool → Option Resolution
  | [], _, _, _ => none
  | subregion :: rest, offset, readonly, nonvolatile =>
    (resolve subregion (offset - subregion.info.addr) readonly nonvolatile).or
      (resolveFirst rest offset readonly nonvolatile)

end

def FlatRange.first (range : FlatRange) : Int := range.addr.start

def FlatRange.stop (range : FlatRange) : Int := addrrangeEnd range.addr

def FlatRange.answer (range : FlatRange) (address : Int) : Resolution :=
  ⟨range.mr, range.offsetInRegion + (address - range.addr.start), range.readonly, range.nonvolatile⟩

def viewAt (view : FlatView) (address : Int) : Option Resolution :=
  (covering first stop view address).map (·.answer address)

/-- Nonempty ranges in order, none before the bound. -/
abbrev ViewFrom (bound : Int) (view : FlatView) : Prop := TiledFrom first stop bound view

@[simp] theorem viewAt_nil (addr) : viewAt [] addr = none := rfl

theorem viewAt_cons (range rest address) : viewAt (range :: rest) address =
      if range.first ≤ address ∧ address < range.stop then some (range.answer address)
      else viewAt rest address := by
  rw [viewAt, covering_cons]
  split <;> rfl

theorem viewAt_below {bound view} (ordered : ViewFrom bound view) {addr}
    (below : addr < bound) : viewAt view addr = none := by
  rw [viewAt, ordered.covering_below below, map_none]

theorem int128Get64_some {a n} (converted : int128Get64 a = some n) :
    (n : Int) = a ∧ 0 ≤ a ∧ a < twoTo64 := by
  unfold int128Get64 at converted
  split at converted
  · simp only [some.injEq] at converted
    omega
  · simp at converted

variable {fr : FlatRange} {globalDirtyLog : Bool}

/-- The answer of the region filled in, from its position. -/
def filled (fr : FlatRange) (base : Int) (offset : Nat)
    (remain address : Int) : Option Resolution :=
  if base ≤ address ∧ address < base + remain then
    some ⟨fr.mr, offset + (address - base), fr.readonly, fr.nonvolatile⟩
  else none

/-- What is left of the region does not reach past the last offset. -/
def OffsetFits (offset : Nat) (remain : Int) : Prop := remain ≠ 0 → offset + remain ≤ twoTo64

/-- The loop may skip ahead: what is left is filled as before. -/
theorem filled_advance {base : Int} {offset run : Nat} {remain now address : Int}
    (length : (run) = now) (inside : now ≤ remain) (fits : OffsetFits offset remain)
    (past : base + now ≤ address) :
    filled fr (base + now) ((offset + run) % 2 ^ 64) (remain - now) address =
      filled fr base offset remain address := by
  -- Past the end of the region both sides are empty, so the modular offset matters only before it.
  unfold filled
  by_cases within : address < base + remain
  · have unwrapped : (offset + run) % 2 ^ 64 = offset + run := by
      have room := fits (by omega)
      unfold twoTo64 at room
      exact Nat.mod_eq_of_lt (by omega)
    rw [if_pos (by omega), if_pos (by omega), unwrapped]
    congr 2
    omega
  · rw [if_neg (by omega), if_neg (by omega)]

theorem advance_fits {offset run : Nat} {remain now : Int} (length : (run) = now)
    (inside : now ≤ remain) (fits : OffsetFits offset remain) :
    OffsetFits ((offset + run) % 2 ^ 64) (remain - now) := by
  intro left
  have room := fits (by omega)
  omega

theorem fillGaps_zero (base offset view) : fillGaps fr base offset 0 view = some view := by
  cases view <;> simp [fillGaps]

theorem viewAt_piece (base offset now address rest) :
    viewAt ({ fr with offsetInRegion := offset, addr := ⟨base, now⟩ } :: rest) address =
      (filled fr base offset now address).or (viewAt rest address) := by
  rw [viewAt_cons]
  change (if base ≤ address ∧ address < base + now then _ else _) = _
  unfold filled
  split <;> rfl

/-- What gap filling promises about the view it returns. -/
def FillsGaps (fr : FlatRange) (bound base : Int) (offset : Nat) (remain : Int)
    (view view' : FlatView) : Prop :=
  ViewFrom bound view' ∧ ∀ address, viewAt view' address = (viewAt view address).or
      (filled fr base offset remain address)

/-- A range that hides the next part of the region goes back in front of the filled rest; if the
region ended before, nothing remains. -/
theorem hidden_spec {range : FlatRange} {rest filledRest : FlatView} {base : Int} {offset run : Nat}
    {remain : Int} (nonempty : range.first < range.stop) (ordered : ViewFrom range.stop rest)
    (ahead : base < range.stop) (reached : range.first ≤ base ∨ remain = 0)
    (fits : OffsetFits offset remain)
    (converted : int128Get64 (min (base + remain) range.stop - base) = some run)
    (recursive : fillGaps fr (base + (min (base + remain) range.stop - base))
      ((offset + run) % 2 ^ 64)
      (remain - (min (base + remain) range.stop - base)) rest = some filledRest)
    (ih : ∀ {view' : FlatView} {bound base : Int} {offset : Nat} {remain : Int},
      ViewFrom bound rest → bound ≤ base → 0 ≤ remain → OffsetFits offset remain →
      fillGaps fr base offset remain rest = some view' →
        FillsGaps fr bound base offset remain rest view') :
    FillsGaps fr range.first base offset remain (range :: rest) (range :: filledRest) := by
  obtain ⟨exact, _, _⟩ := int128Get64_some converted
  have within : min (base + remain) range.stop - base ≤ remain := by omega
  have covers : base + (min (base + remain) range.stop - base) ≤ range.stop := by omega
  have stops : remain - (min (base + remain) range.stop - base) ≠ 0 →
    base + (min (base + remain) range.stop - base) = range.stop := by omega
  generalize min (base + remain) range.stop - base = now at *
  by_cases ended : remain - now = 0
  · -- The range hides all of the region.
    rw [ended, fillGaps_zero] at recursive
    cases recursive
    refine ⟨⟨le_refl _, nonempty, ordered⟩, fun addr => ?_⟩
    rw [viewAt_cons]
    split
    · rfl
    · rw [filled, if_neg (by omega), or_none]
  obtain ⟨ordered', answers⟩ :=
    ih ordered (by omega) (by omega) (advance_fits exact (by omega) fits) recursive
  refine ⟨⟨le_refl _, nonempty, ordered'⟩, fun addr => ?_⟩
  rw [viewAt_cons, viewAt_cons, answers]
  split
  · rfl
  · by_cases past : base + now ≤ addr
    · rw [filled_advance exact (by omega) fits past]
    · -- Before the new position the region is either hidden or not yet begun.
      rw [filled, filled, if_neg (by omega), if_neg (by omega)]

/-- Filling the gaps adds the region exactly where the view had no answer, and keeps the order. -/
theorem fillGaps_spec {view view' : FlatView} {bound base : Int} {offset : Nat} {remain : Int}
    (ordered : ViewFrom bound view) (lower : bound ≤ base) (length : 0 ≤ remain)
    (fits : OffsetFits offset remain)
    (rendered : fillGaps fr base offset remain view = some view') :
    FillsGaps fr bound base offset remain view view' := by
  -- The position moves along the view, so it and the bound stay general.
  induction view generalizing view' bound base offset remain with
  | nil =>
    rw [fillGaps] at rendered
    split at rendered
    · rename_i nonzero
      cases rendered
      refine ⟨⟨lower, ?_, trivial⟩, fun address => ?_⟩
      · change base < base + remain
        omega
      · rw [viewAt_piece, viewAt_nil, or_none, none_or]
    · cases rendered
      refine ⟨trivial, fun address => ?_⟩
      rw [filled, if_neg (by omega), or_none]
  | cons range rest ih =>
    obtain ⟨after, nonempty, ordered⟩ := ordered
    have stop_eq : addrrangeEnd range.addr = range.stop := rfl
    have first_eq : range.addr.start = range.first := rfl
    rw [fillGaps, stop_eq, first_eq] at rendered
    split at rendered
    · -- Nothing is left to fill in.
      cases rendered
      refine ⟨⟨after, nonempty, ordered⟩, fun address => ?_⟩
      rw [filled, if_neg (by omega), or_none]
    split at rendered
    · -- The range lies wholly before the position.
      rename_i behind
      simp only [bind_eq_bind, bind_eq_some_iff, pure_def] at rendered
      obtain ⟨filledRest, recursive, ⟨⟩⟩ := rendered
      obtain ⟨ordered', answers⟩ := ih ordered behind length fits recursive
      refine ⟨⟨after, nonempty, ordered'⟩, fun address => ?_⟩
      rw [viewAt_cons, viewAt_cons, answers]
      split <;> rfl
    split at rendered
    · -- A gap before the range takes the first part of the region, and the range hides the next.
      rename_i nonzero ahead gap
      simp only [bind_eq_bind, bind_eq_some_iff, pure_def] at rendered
      obtain ⟨run₁, converted₁, run₂, converted₂, filledRest, recursive, ⟨⟩⟩ := rendered
      obtain ⟨exact, _, _⟩ := int128Get64_some converted₁
      have within : min remain (range.first - base) ≤ remain := min_le_left _ _
      have reached : range.first ≤ base + min remain (range.first - base) ∨
        remain - min remain (range.first - base) = 0 := by omega
      have inGap : base + min remain (range.first - base) ≤ range.first := by omega
      generalize min remain (range.first - base) = now at *
      obtain ⟨ordered', answers⟩ := hidden_spec nonempty ordered (by omega) reached
        (advance_fits exact within fits) converted₂ recursive ih
      refine ⟨⟨lower, by change base < base + now; omega, TiledFrom.mono inGap ordered'⟩,
        fun address => ?_⟩
      rw [viewAt_piece, answers]
      by_cases past : base + now ≤ address
      · rw [filled_advance exact within fits past, filled, if_neg (by omega), none_or]
      -- Up to the end of the gap the old view has no answer.
      have whole : ViewFrom range.first (range :: rest) := ⟨le_refl _, nonempty, ordered⟩
      have silent : viewAt (range :: rest) address = none := viewAt_below whole (by omega)
      have later : filled fr (base + now) ((offset + run₁) % 2 ^ 64)
        (remain - now) address = none := if_neg (by omega)
      have same : filled fr base offset now address = filled fr base offset remain address :=
        if_congr (by omega) rfl rfl
      rw [silent, later, same, none_or, none_or, or_none]
    -- The range hides the next part of the region.
    simp only [bind_eq_bind, bind_eq_some_iff, pure_def] at rendered
    obtain ⟨run, converted, filledRest, recursive, ⟨⟩⟩ := rendered
    obtain ⟨ordered', answers⟩ := hidden_spec nonempty ordered (by omega) (.inl (by omega)) fits
      converted recursive ih
    exact ⟨TiledFrom.mono after ordered', answers⟩

theorem clipped_iff (base size clip address) :
    addrrangeContains (addrrangeIntersection ⟨base, size⟩ clip) address ↔
      (0 ≤ address - base ∧ address - base < size) ∧ addrrangeContains clip address := by
  rw [addrrangeContains_intersection, addrrangeContains_iff]
  refine and_congr_left fun _ => ?_
  change base ≤ address ∧ address < base + size ↔ _
  omega

theorem not_clipped {range clip} (apart : addrrangeIntersects range clip = false) (addr) :
    ¬ addrrangeContains (addrrangeIntersection range clip) addr = true := by
  rw [addrrangeContains_intersection]
  intro ⟨first, second⟩
  rw [addrrangeIntersects_of_common first second] at apart
  contradiction

theorem intersection_bounds {range clip} (common : addrrangeIntersects range clip)
    (length : 0 ≤ range.size) (length' : 0 ≤ clip.size) :
    0 ≤ (addrrangeIntersection range clip).size ∧
      range.start ≤ (addrrangeIntersection range clip).start ∧
      clip.start ≤ (addrrangeIntersection range clip).start ∧
      (addrrangeIntersection range clip).start + (addrrangeIntersection range clip).size ≤
        range.start + range.size := by
  simp only [addrrangeIntersects, Bool.or_eq_true, addrrangeContains_iff] at common
  simp only [addrrangeIntersection, addrrangeEnd]
  omega

/-- The answer of a part of the tree, asked only inside a clip. -/
def clippedTo (clip : AddrRange) (answer : Int → Option Resolution)
    (address : Int) : Option Resolution :=
  if addrrangeContains clip address then answer address else none

/-- Rendering keeps the order and adds answers behind the view's. -/
def Renders (bound : Int) (clip : AddrRange) (answer : Int → Option Resolution)
    (view view' : FlatView) : Prop :=
  ViewFrom bound view' ∧ ∀ address, viewAt view' address = (viewAt view address).or
    (clippedTo clip answer address)

variable {bound base : Int} {clip : AddrRange} {answer : Int → Option Resolution}
    {view view' : FlatView} {info : RegionInfo}

theorem Renders.refl (ordered : ViewFrom bound view)
    (silent : ∀ addr, clippedTo clip answer addr = none) : Renders bound clip answer view view :=
  ⟨ordered, fun addr => by rw [silent, or_none]⟩

theorem Renders.trans {answer' view''} (first : Renders bound clip answer view view')
    (second : Renders bound clip answer' view' view'') :
    Renders bound clip (fun addr => (answer addr).or (answer' addr)) view view'' := by
  refine ⟨second.1, fun addr => ?_⟩
  rw [second.2, first.2, Option.or_assoc]
  congr 1
  unfold clippedTo
  split <;> rfl

/-- Clipping to a region is answering only inside it. -/
theorem Renders.within {size}
    (rendered : Renders bound (addrrangeIntersection ⟨base, size⟩ clip) answer view view') :
    Renders bound clip
      (fun addr => if 0 ≤ addr - base ∧ addr - base < size then answer addr else none)
      view view' := by
  refine ⟨rendered.1, fun addr => ?_⟩
  rw [rendered.2]
  congr 1
  simp only [clippedTo]
  -- Both sides ask whether the address lies in the clip and in the extent.
  by_cases inside : addrrangeContains (addrrangeIntersection ⟨base, size⟩ clip) addr = true
  · obtain ⟨extent, clipped⟩ := (clipped_iff base size clip addr).mp inside
    rw [if_pos inside, if_pos clipped, if_pos extent]
  rw [if_neg inside]
  split
  · rename_i clipped
    rw [if_neg fun extent => inside ((clipped_iff base size clip addr).mpr ⟨extent, clipped⟩)]
  · rfl

/-- A region that answers itself is rendered over the whole clip. -/
theorem renderSelf_spec {content readonly nonvolatile}
    (ordered : ViewFrom bound view) (lower : bound ≤ clip.start) (length : 0 ≤ clip.size)
    (inside : clip.start + clip.size ≤ base + info.size)
    (rendered : renderSelf globalDirtyLog info content view base clip readonly
      nonvolatile = some view') :
    Renders bound clip
      (fun addr => if content.terminates then some ⟨info.id, addr - base, readonly, nonvolatile⟩
        else none) view view' := by
  unfold renderSelf at rendered
  split at rendered
  · rename_i terminates
    simp only [bind_eq_bind, bind_eq_some_iff] at rendered
    obtain ⟨offset, converted, filledIn⟩ := rendered
    obtain ⟨exact, _, _⟩ := int128Get64_some converted
    -- The offset cannot wrap, because a region is at most two to the 64 long.
    have fits : OffsetFits offset clip.size := by
      intro _
      have := info.size_le
      unfold twoTo64
      omega
    obtain ⟨ordered', answers⟩ := fillGaps_spec ordered lower length fits filledIn
    refine ⟨ordered', fun addr => ?_⟩
    rw [answers]
    congr 1
    unfold filled clippedTo
    simp only [addrrangeContains_iff, terminates, if_true]
    refine if_congr Iff.rfl ?_ rfl
    rw [exact]
    congr 2
    omega
  rename_i terminates
  cases rendered
  refine Renders.refl ordered fun addr => ?_
  simp [clippedTo, terminates]

/-- The entry of `render_memory_region`: a disabled region and one outside the clip leave the view
alone, and any other renders its body into the intersection. -/
theorem entry_spec (body : AddrRange → Option FlatView) (ordered : ViewFrom bound view)
    (lower : bound ≤ clip.start) (length : 0 ≤ clip.size)
    (rendered : (if !info.enabled then some view else
      if !addrrangeIntersects ⟨base, info.size⟩ clip then some view else
      body (addrrangeIntersection ⟨base, info.size⟩ clip)) = some view')
    (inner : ∀ clip' : AddrRange, bound ≤ clip'.start → 0 ≤ clip'.size →
      clip'.start + clip'.size ≤ base + info.size → body clip' = some view' →
      Renders bound clip' answer view view') :
    Renders bound clip
      (fun addr => if info.enabled ∧ 0 ≤ addr - base ∧ addr - base < info.size then answer addr
        else none) view view' := by
  cases enabled : info.enabled with
  | false =>
    simp only [enabled, Bool.not_false, if_true] at rendered
    cases rendered
    exact Renders.refl ordered fun addr => by simp [clippedTo]
  | true =>
    simp only [enabled, Bool.not_true, Bool.false_eq_true, if_false] at rendered
    simp only [true_and]
    cases common : addrrangeIntersects ⟨base, info.size⟩ clip with
    | false =>
      simp only [common, Bool.not_false, if_true] at rendered
      cases rendered
      -- An empty rendering into the empty intersection.
      exact (Renders.refl ordered fun addr => if_neg (not_clipped common addr)).within
    | true =>
      simp only [common, Bool.not_true, Bool.false_eq_true, if_false] at rendered
      obtain ⟨length', _, lower', inside⟩ :=
        intersection_bounds common (Int.natCast_nonneg _) length
      exact (inner _ (by omega) length' inside rendered).within

mutual

/-- Rendering adds the tree's answers behind those of the view. -/
theorem renderMemoryRegion_spec (mr) {view view' bound base clip readonly nonvolatile}
    (ordered : ViewFrom bound view) (lower : bound ≤ clip.start) (length : 0 ≤ clip.size)
    (rendered : renderMemoryRegion globalDirtyLog mr view base clip readonly
      nonvolatile = some view') :
    Renders bound clip (fun addr => resolve mr (addr - (base + mr.info.addr)) readonly nonvolatile)
      view view' := by
  match mr with
  | .alias info aliasOffset _ target =>
    rw [renderMemoryRegion] at rendered
    simp only [MemoryRegion.info_alias, resolve]
    refine entry_spec (fun clip' => renderMemoryRegion globalDirtyLog target view
        (base + info.addr - target.info.addr - aliasOffset) clip' (readonly || info.readonly)
        (nonvolatile || info.nonvolatile))
      ordered lower length rendered fun clip' lower' length' _ rendered' => ?_
    have recursive := renderMemoryRegion_spec target ordered lower' length' rendered'
    -- The target's own address cancels, which leaves the alias offset.
    have pos : ∀ addr : Int, addr - (base + info.addr - target.info.addr - aliasOffset +
        target.info.addr) = addr - (base + info.addr) + aliasOffset := by
      intro addr
      omega
    simpa only [pos] using recursive
  | .region info content subs =>
    rw [renderMemoryRegion] at rendered
    simp only [MemoryRegion.info_region, resolve]
    refine entry_spec (fun clip' => do
        let view ← renderSubregions globalDirtyLog subs view (base + info.addr) clip'
          (readonly || info.readonly) (nonvolatile || info.nonvolatile)
        renderSelf globalDirtyLog info content view (base + info.addr) clip'
          (readonly || info.readonly) (nonvolatile || info.nonvolatile))
      ordered lower length rendered fun clip' lower' length' inside rendered' => ?_
    simp only [bind_eq_bind, bind_eq_some_iff] at rendered'
    obtain ⟨middle, children, self⟩ := rendered'
    have above := renderSubregions_spec subs ordered lower' length' children
    exact above.trans (renderSelf_spec above.1 lower' length' inside self)

/-- Children are rendered in order, the first answer winning. -/
theorem renderSubregions_spec (subs) {view view' bound base clip readonly nonvolatile}
    (ordered : ViewFrom bound view) (lower : bound ≤ clip.start) (length : 0 ≤ clip.size)
    (rendered : renderSubregions globalDirtyLog subs view base clip readonly
      nonvolatile = some view') :
    Renders bound clip (fun addr => resolveFirst subs (addr - base) readonly nonvolatile)
      view view' := by
  match subs with
  | [] =>
    rw [renderSubregions] at rendered
    cases rendered
    exact Renders.refl ordered fun addr => by simp [clippedTo, resolveFirst]
  | subregion :: rest =>
    rw [renderSubregions] at rendered
    simp only [bind_eq_bind, bind_eq_some_iff] at rendered
    obtain ⟨middle, first, later⟩ := rendered
    have above := renderMemoryRegion_spec subregion ordered lower length first
    have below := renderSubregions_spec rest above.1 lower length later
    simpa only [resolveFirst, Int.sub_sub] using above.trans below

end

/-- A range that absorbed another ends with it and answers as it does. -/
def Absorbs (grown last : FlatRange) : Prop :=
  grown.stop = last.stop ∧ ∀ address, grown.answer address = last.answer address

/-- Merging absorbs the next range where the last one stopped. -/
theorem Absorbs.step {grown last} (absorbs : Absorbs grown last) (mergeable : canMerge last range) :
    Absorbs { grown with addr := { grown.addr with
      size := grown.addr.size + range.addr.size } } range ∧ range.first = grown.stop := by
  simp only [canMerge, Bool.and_eq_true, decide_eq_true_eq] at mergeable
  obtain ⟨⟨⟨⟨⟨⟨adjacent, sameRegion⟩, offsets⟩, _⟩, _⟩, sameReadonly⟩, sameNonvolatile⟩ := mergeable
  obtain ⟨stops, answers⟩ := absorbs
  simp only [stop, first, addrrangeEnd] at stops adjacent ⊢
  refine ⟨⟨by simp only [stop, addrrangeEnd]; omega, fun address => ?_⟩, by omega⟩
  -- Growing a range does not move its start, so its answers are those of the range absorbed last.
  refine (answers address).trans ?_
  simp only [FlatRange.answer, sameRegion, sameReadonly, sameNonvolatile,
    Resolution.mk.injEq, true_and, and_true]
  omega

/-- The inner loop keeps the order and every answer. -/
theorem simplifyFrom_spec {grown last rest} (ordered : ViewFrom bound (grown :: rest))
    (absorbs : Absorbs grown last) : ViewFrom bound (simplifyFrom grown last rest) ∧
      ∀ address, viewAt (simplifyFrom grown last rest) address =
          viewAt (grown :: rest) address := by
  induction rest generalizing grown last bound with
  | nil => exact ⟨ordered, fun _ => rfl⟩
  | cons range rest ih =>
    obtain ⟨lower, nonempty, lower', nonempty', later⟩ := ordered
    rw [simplifyFrom]
    split
    · -- The merged range covers what both ranges covered, with the same answers.
      rename_i mergeable
      obtain ⟨absorbs', adjacent⟩ := absorbs.step mergeable
      set merged : FlatRange := { grown with
        addr := { grown.addr with size := grown.addr.size + range.addr.size } }
      have first_eq : merged.first = grown.first := rfl
      have stop_eq : merged.stop = range.stop := absorbs'.1
      have ordered' : ViewFrom bound (merged :: rest) := ⟨lower, by omega, stop_eq ▸ later⟩
      obtain ⟨simplified, answers⟩ := ih ordered' absorbs'
      refine ⟨simplified, fun address => ?_⟩
      rw [answers, viewAt_cons, viewAt_cons, viewAt_cons, first_eq, stop_eq]
      by_cases early : address < grown.stop
      · rw [if_congr (show _ ↔ grown.first ≤ address ∧ address < grown.stop by omega) rfl rfl]
        split
        · rfl
        · rw [viewAt_below later (by omega), if_neg (by omega)]
      · rw [if_neg (show ¬ (grown.first ≤ address ∧ address < grown.stop) by omega), absorbs'.2]
        exact if_congr (by omega) rfl rfl
    · obtain ⟨simplified, answers⟩ := ih ⟨lower', nonempty', later⟩ ⟨rfl, fun _ => rfl⟩
      refine ⟨⟨lower, nonempty, simplified⟩, fun address => ?_⟩
      rw [viewAt_cons, viewAt_cons, answers]

/-- The view answers each address as the region tree resolves it. -/
theorem generateMemoryTopology_spec {mr}
    (generated : generateMemoryTopology globalDirtyLog (some mr) = some view) : ViewFrom 0 view ∧
      ∀ address, viewAt view address =
        clippedTo wholeSpace (fun address => resolve mr (address - mr.info.addr) false false)
            address := by
  simp only [generateMemoryTopology, bind_eq_bind, bind_eq_some_iff,
    pure_def, some.injEq] at generated
  obtain ⟨rendered, rendering, rfl⟩ := generated
  have empty : ViewFrom 0 [] := trivial
  obtain ⟨ordered, answers⟩ := renderMemoryRegion_spec mr empty (le_refl _) (by decide) rendering
  have flatviewSimplify_spec : ViewFrom 0 (flatviewSimplify rendered) ∧
    ∀ address, viewAt (flatviewSimplify rendered) address = viewAt rendered address := by
    cases rendered with
    | nil => exact ⟨trivial, fun _ => rfl⟩
    | cons range rest => exact simplifyFrom_spec ordered ⟨rfl, fun _ => rfl⟩
  obtain ⟨simplified, same⟩ := flatviewSimplify_spec
  refine ⟨simplified, fun address => ?_⟩
  rw [same, answers, viewAt_nil, none_or]
  simp

theorem viewAt_of_mem (ordered : ViewFrom bound view)
    (mem : range ∈ view) {addr} (inside : addrrangeContains range.addr addr) :
    viewAt view addr = some (range.answer addr) := by
  obtain ⟨lower, upper⟩ := (addrrangeContains_iff _ _).mp inside
  rw [viewAt, ordered.covering_of_mem mem lower upper, map_some]

/-- Ranges of a view are nonempty and inside the address space. -/
theorem generateMemoryTopology_range {mr}
    (generated : generateMemoryTopology globalDirtyLog (some mr) = some view) (mem : range ∈ view) :
    0 ≤ range.addr.start ∧ 0 < range.addr.size ∧ addrrangeEnd range.addr ≤ twoTo64 := by
  obtain ⟨ordered, answers⟩ := generateMemoryTopology_spec generated
  obtain ⟨nonneg, nonempty⟩ := ordered.bounds mem
  simp only [first, stop, addrrangeEnd] at nonneg nonempty
  refine ⟨nonneg, by omega, ?_⟩
  -- The last address of the range has an answer, so the clip contains it.
  have last : addrrangeContains range.addr (addrrangeEnd range.addr - 1) := by
    rw [addrrangeContains_iff, addrrangeEnd]
    omega
  have answer := viewAt_of_mem ordered mem last
  rw [answers, clippedTo] at answer
  split at answer
  · rename_i clipped
    have := (addrrangeContains_iff _ _).mp clipped
    simp only [wholeSpace] at this
    omega
  · simp at answer

/-- Rendering resolves every address as the region tree says. The ranges are in order, disjoint,
nonempty and inside the address space; an address is in one exactly when the tree resolves it, with
the tree's answer. -/
theorem generateMemoryTopology_resolves (globalDirtyLog : Bool)
    (mr : MemoryRegion) (view : FlatView)
    (generated : generateMemoryTopology globalDirtyLog (some mr) = some view) :
    view.Pairwise (fun left right => addrrangeEnd left.addr ≤ right.addr.start) ∧
      (∀ range ∈ view, 0 ≤ range.addr.start ∧ 0 < range.addr.size ∧
        addrrangeEnd range.addr ≤ twoTo64) ∧ ∀ address : Int, 0 ≤ address → address < twoTo64 →
        ((∃ range ∈ view, addrrangeContains range.addr address = true) ↔
          (resolve mr (address - mr.info.addr) false false).isSome = true) ∧
        ∀ range ∈ view, addrrangeContains range.addr address = true →
          resolve mr (address - mr.info.addr) false false =
            some ⟨range.mr, range.offsetInRegion + (address - range.addr.start), range.readonly,
              range.nonvolatile⟩ := by
  obtain ⟨ordered, answers⟩ := generateMemoryTopology_spec generated
  refine ⟨ordered.pairwise, fun range member => ?_, fun address lower upper => ?_⟩
  · exact generateMemoryTopology_range generated member
  · have clipped : addrrangeContains wholeSpace address = true := by
      rw [addrrangeContains_iff, wholeSpace]
      exact ⟨lower, by simpa using upper⟩
    have answer := answers address
    rw [clippedTo, if_pos clipped] at answer
    refine ⟨⟨?_, ?_⟩, ?_⟩
    · intro ⟨range, member, inside⟩
      rw [← answer, viewAt_of_mem ordered member inside, isSome_some]
    · intro resolved
      rw [← answer, viewAt, isSome_map, isSome_iff_exists] at resolved
      obtain ⟨range, covered⟩ := resolved
      obtain ⟨member, inside⟩ := mem_of_covering covered
      exact ⟨range, member, (addrrangeContains_iff _ _).mpr inside⟩
    · intro range member inside
      rw [← answer, viewAt_of_mem ordered member inside, FlatRange.answer]

/-- RAM, a read-only window onto it, and a device over a part. -/
def sampleBoard : MemoryRegion :=
  let ram : MemoryRegion :=
    .region ⟨1, true, false, false, 0, 0x1000, 0, by decide, by decide⟩ ⟨true, true, 0, true⟩ []
  let device : MemoryRegion :=
    .region ⟨2, true, false, false, 0x800, 0x100, 1, by decide, by decide⟩ ⟨true, true, 0, false⟩ []
  let window : MemoryRegion :=
    .alias ⟨3, true, true, false, 0x2000, 0x400, 0, by decide, by decide⟩ 0xe00 (by decide) ram
  .region ⟨0, true, false, false, 0, 2 ^ 64, 0, by decide, by decide⟩ ⟨false, true, 0,
    false⟩ [device, window, ram]

/-- The sample view resolves every address as its tree does. -/
theorem generateMemoryTopology_resolves_board :
    ∃ view, generateMemoryTopology false (some sampleBoard) = some view ∧ view.length = 4 ∧
      view.Pairwise (fun left right => addrrangeEnd left.addr ≤ right.addr.start) ∧
      ∀ range ∈ view, addrrangeContains range.addr 0x2100 = true →
        resolve sampleBoard 0x2100 false false =
          some ⟨range.mr, range.offsetInRegion + (0x2100 - range.addr.start),
              range.readonly, range.nonvolatile⟩ := by
  obtain ⟨view, generated, count⟩ :
      ∃ view, generateMemoryTopology false (some sampleBoard) = some view ∧ view.length = 4 :=
    ⟨_, rfl, rfl⟩
  obtain ⟨ordered, _, resolved⟩ := generateMemoryTopology_resolves false sampleBoard view generated
  exact ⟨view, generated, count, ordered, (resolved 0x2100 (by decide) (by decide)).2⟩

end Qemu.Memory
