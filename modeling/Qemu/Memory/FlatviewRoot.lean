import Qemu.Memory.Resolve

/-! Sharing the view of a region: `memory_region_get_flatview_root`. -/

namespace Qemu.Memory

open Tiling List Option MemoryRegion Nat

/-- The scan over the children in `memory_region_get_flatview_root`: it counts the enabled ones and
remembers where one is that the container holds in its entirety. A second enabled child ends it and
forgets the first. -/
def scanChildren (size : Nat) : List MemoryRegion → Nat → Nat → Option Nat → Nat × Option Nat
  | [], _, found, next => (found, next)
  | child :: rest, position, found, next =>
    if child.info.enabled then
      let found := found + 1
      if found > 1 then (found, none)
      else if child.info.addr = 0 && size ≥ child.info.size then
        scanChildren size rest (position + 1) found (some position)
      else scanChildren size rest (position + 1) found next
    else scanChildren size rest (position + 1) found next

mutual

/-- The region whose view stands for another's. -/
def memoryRegionGetFlatviewRoot : MemoryRegion → Option MemoryRegion
  | .alias info aliasOffset offset_lt target =>
    if !info.enabled then none
    else if aliasOffset = 0 && info.size ≥ target.info.size then memoryRegionGetFlatviewRoot target
    else some (.alias info aliasOffset offset_lt target)
  | .region info content subregions =>
    if !info.enabled then none
    else if !content.terminates then
      match scanChildren info.size subregions 0 0 none with
      | (0, _) => none
      | (_, some next) => flatviewRootAt subregions next
      | (_, none) => some (.region info content subregions)
    else some (.region info content subregions)

/-- The walk continues with the child at a position. -/
def flatviewRootAt : List MemoryRegion → Nat → Option MemoryRegion
  | [], _ => none
  | child :: _, 0 => memoryRegionGetFlatviewRoot child
  | _ :: rest, position + 1 => flatviewRootAt rest position

end

def enabledChildren (subregions : List MemoryRegion) : List MemoryRegion :=
  subregions.filter (·.info.enabled)

/-- One skipped level: the next region is contained entirely, whatever the addresses and flags. -/
inductive SkipStep : MemoryRegion → MemoryRegion → Prop
  | wholeAlias {info : RegionInfo} {offset_lt : 0 < 2 ^ 64} {target : MemoryRegion} :
    info.enabled = true → target.info.size ≤ info.size →
      SkipStep (.alias info 0 offset_lt target) target
  | onlyChild {info : RegionInfo} {content : ContentInfo} {subregions : List MemoryRegion}
      {child : MemoryRegion} : info.enabled = true → content.terminates = false →
    enabledChildren subregions = [child] → child.info.addr = 0 → child.info.size ≤ info.size →
    SkipStep (.region info content subregions) child

/-- A chain of skipped levels, with their flags. -/
inductive Skips : MemoryRegion → MemoryRegion → Bool → Bool → Prop
  | refl (mr : MemoryRegion) : Skips mr mr false false
  | step {mr next last : MemoryRegion} {readonly nonvolatile : Bool} :
    SkipStep mr next → Skips next last readonly nonvolatile →
    Skips mr last (mr.info.readonly || readonly) (mr.info.nonvolatile || nonvolatile)

/-- No further level can be skipped. -/
def LastRegion (mr : MemoryRegion) : Prop := ∀ next, ¬ SkipStep mr next

theorem enabledChildren_cons (child rest) : enabledChildren (child :: rest) =
      if child.info.enabled then child :: enabledChildren rest else enabledChildren rest :=
  filter_cons

theorem scanChildren_one (size subs pos) (next : Option Nat) : scanChildren size subs pos 1 next =
      if enabledChildren subs = [] then (1, next) else (2, none) := by
  induction subs generalizing pos with
  | nil => rfl
  | cons child rest ih =>
    rw [scanChildren, enabledChildren_cons]
    cases child.info.enabled with
    | false => exact ih _
    | true => simp

/-- The scan counts the enabled children up to two; the walk goes on from an only one that is
contained entirely. -/
theorem scanChildren_zero (size subs pos) : match enabledChildren subs with
    | [] => scanChildren size subs pos 0 none = (0, none)
    | [child] => ∃ index, scanChildren size subs pos 0 none =
          (1, if child.info.addr = 0 && size ≥ child.info.size then some (pos + index) else none) ∧
        flatviewRootAt subs index = memoryRegionGetFlatviewRoot child
    | _ => scanChildren size subs pos 0 none = (2, none) := by
  induction subs generalizing pos with
  | nil => rfl
  | cons head rest ih =>
    rw [scanChildren, enabledChildren_cons]
    cases head.info.enabled with
    | false =>
      simp only [Bool.false_eq_true, if_false]
      have later := ih (pos + 1)
      split at later
      · exact later
      · obtain ⟨index, scanned, walked⟩ := later
        refine ⟨index + 1, ?_, by rw [flatviewRootAt, walked]⟩
        rw [scanned, add_assoc, add_comm 1]
      · exact later
    | true =>
      simp only [if_true, Nat.zero_add, gt_iff_lt, lt_irrefl, if_false, scanChildren_one]
      cases enabledChildren rest with
      | nil => exact ⟨0, by split <;> rfl, by rw [flatviewRootAt]⟩
      | cons => simp

variable {mr next : MemoryRegion} {last : MemoryRegion} {nonvolatile readonly : Bool}

/-- A region that is skipped has its child's flat view root. -/
theorem SkipStep.root (step : SkipStep mr next) :
    memoryRegionGetFlatviewRoot mr = memoryRegionGetFlatviewRoot next := by
  cases step with
  | wholeAlias enabled fits =>
    rw [memoryRegionGetFlatviewRoot]
    simp [enabled, fits]
  | onlyChild enabled passive only atZero fits =>
    rename_i info _ subs
    have scan := scanChildren_zero info.size subs 0
    rw [only] at scan
    obtain ⟨index, scanned, walked⟩ := scan
    simp only [atZero, fits, decide_true, Bool.and_self, if_true, Nat.zero_add] at scanned
    rw [memoryRegionGetFlatviewRoot]
    simp only [enabled, passive, scanned, Bool.not_true, Bool.not_false,
      Bool.false_eq_true, if_false, if_true]
    exact walked

theorem Skips.root (skips : Skips mr last readonly nonvolatile) :
    memoryRegionGetFlatviewRoot mr = memoryRegionGetFlatviewRoot last := by
  induction skips with
  | refl => rfl
  | step step _ ih => exact step.root.trans ih

/-- Skipping ends, at a region that is not skipped. -/
theorem exists_skips (mr) : ∃ last readonly nonvolatile, Skips mr last readonly nonvolatile ∧
    LastRegion last := by
  by_cases final : LastRegion mr
  · exact ⟨mr, false, false, .refl mr, final⟩
  simp only [LastRegion, not_forall, not_not] at final
  obtain ⟨next, step⟩ := final
  -- A smaller region comes after each skipped level.
  have sizeOf_lt : sizeOf next < sizeOf mr := by
    cases step with
    | wholeAlias =>
      simp only [alias.sizeOf_spec]
      omega
    | onlyChild _ _ only =>
      have mem : next ∈ enabledChildren _ := only ▸ mem_cons_self
      have smaller := sizeOf_lt_of_mem (mem_of_mem_filter mem)
      simp only [region.sizeOf_spec]
      omega
  obtain ⟨last, readonly, nonvolatile, skips, final⟩ := exists_skips next
  exact ⟨last, _, _, .step step skips, final⟩
termination_by sizeOf mr

/-- Further flags on the way to an answer. -/
def Resolution.orFlags (readonly nonvolatile : Bool) (answer : Resolution) : Resolution :=
  { answer with
    readonly := answer.readonly || readonly, nonvolatile := answer.nonvolatile || nonvolatile }

mutual

/-- Flags of a parent are or-ed into every answer below it. -/
theorem resolve_orFlags (mr offset readonly nonvolatile extra extra') :
    resolve mr offset (readonly || extra) (nonvolatile || extra') =
      (resolve mr offset readonly nonvolatile).map (·.orFlags extra extra') := by
  match mr with
  | .alias info aliasOffset _ target =>
    rw [resolve, resolve]
    split
    · rw [Bool.or_right_comm, Bool.or_right_comm nonvolatile]
      exact resolve_orFlags target _ _ _ _ _
    · rfl
  | .region info content subs =>
    rw [resolve, resolve]
    split
    · simp only [Bool.or_right_comm _ extra, Bool.or_right_comm _ extra']
      rw [resolveFirst_orFlags, map_or]
      cases content.terminates <;> rfl
    · rfl

theorem resolveFirst_orFlags (subs offset readonly nonvolatile extra extra') :
    resolveFirst subs offset (readonly || extra) (nonvolatile || extra') =
      (resolveFirst subs offset readonly nonvolatile).map (·.orFlags extra extra') := by
  match subs with
  | [] => rfl
  | subregion :: rest =>
    rw [resolveFirst, resolveFirst, resolve_orFlags, resolveFirst_orFlags, map_or]

end

theorem resolve_extent {offset answer}
    (resolved : resolve mr offset readonly nonvolatile = some answer) :
    mr.info.enabled ∧ 0 ≤ offset ∧ offset < mr.info.size := by
  match mr with
  | .alias .. | .region .. =>
    rw [resolve] at resolved
    exact (ite_none_right_eq_some.mp resolved).1

theorem resolve_outside (mr offset readonly nonvolatile)
    (out : ¬ (mr.info.enabled = true ∧ 0 ≤ offset ∧ offset < mr.info.size)) :
    resolve mr offset readonly nonvolatile = none := by
  cases resolved : resolve mr offset readonly nonvolatile with
  | none => rfl
  | some answer => exact absurd (resolve_extent resolved) out

/-- Disabled children answer nothing. -/
theorem resolveFirst_enabled (subs offset readonly nonvolatile) :
    resolveFirst subs offset readonly nonvolatile =
      resolveFirst (enabledChildren subs) offset readonly nonvolatile := by
  induction subs with
  | nil => rfl
  | cons child rest ih =>
    rw [enabledChildren_cons]
    split
    case isTrue => rw [resolveFirst, resolveFirst, ih]
    case isFalse disabled =>
      have silent := resolve_outside child (offset - child.info.addr) readonly nonvolatile
        fun all => disabled all.1
      rw [resolveFirst, silent, none_or, ih]

/-- A skipped region answers as its child does. -/
theorem SkipStep.resolve (step : SkipStep mr next) (offset readonly nonvolatile) :
    resolve mr offset readonly nonvolatile =
      Memory.resolve next offset (readonly || mr.info.readonly)
          (nonvolatile || mr.info.nonvolatile) := by
  -- Outside the skipped level the next one, being smaller, has no answer either.
  have smaller : next.info.size ≤ mr.info.size := by cases step <;> assumption
  by_cases inside : mr.info.enabled = true ∧ 0 ≤ offset ∧ offset < mr.info.size
  · cases step with
    | wholeAlias enabled fits =>
      rw [info_alias] at inside ⊢
      rw [Memory.resolve, if_pos inside]
      simp
    | onlyChild enabled passive only atZero fits =>
      rw [info_region] at inside ⊢
      rw [Memory.resolve, if_pos inside]
      dsimp only
      rw [resolveFirst_enabled, only]
      simp [resolveFirst, passive, atZero]
  · have enabled : mr.info.enabled := by cases step <;> assumption
    rw [resolve_outside _ _ _ _ inside, resolve_outside]
    intro ⟨_, lower, upper⟩
    exact inside ⟨enabled, lower, by omega⟩

theorem Skips.resolve (skips : Skips mr last readonly nonvolatile) (offset above above') :
    resolve mr offset above above' =
      Memory.resolve last offset (above || readonly) (above' || nonvolatile) := by
  induction skips generalizing above above' with
  | refl => simp
  | step step _ ih => rw [step.resolve, ih, Bool.or_assoc, Bool.or_assoc]

variable {globalDirtyLog : Bool}

def FlatRange.orFlags (readonly nonvolatile : Bool) (range : FlatRange) : FlatRange :=
  { range with
    readonly := range.readonly || readonly, nonvolatile := range.nonvolatile || nonvolatile }

/-- Flags take no part in filling gaps. -/
theorem fillGaps_orFlags (fr base offset remain view extra extra') :
    fillGaps (fr.orFlags extra extra') base offset remain (view.map (·.orFlags extra extra')) =
      (fillGaps fr base offset remain view).map (List.map (·.orFlags extra extra')) := by
  induction view generalizing base offset remain with
  | nil =>
    rw [map_nil, fillGaps, fillGaps]
    split <;> rfl
  | cons range rest ih =>
    -- The loop looks at addresses only, which the flags leave alone.
    have addr_eq : (range.orFlags extra extra').addr = range.addr := rfl
    rw [map_cons, fillGaps, fillGaps, addr_eq]
    split
    · rfl
    split
    · rw [ih]
      cases fillGaps fr base offset remain rest <;> rfl
    dsimp only [bind_eq_bind]
    split
    · cases int128Get64 (min remain (range.addr.start - base)) with
      | none => rfl
      | some run =>
        cases int128Get64 (min (base + min remain (range.addr.start - base) +
            (remain - min remain (range.addr.start - base))) (addrrangeEnd range.addr) -
            (base + min remain (range.addr.start - base))) with
        | none => rfl
        | some run' =>
          simp only [bind_some, ih]
          cases fillGaps fr _ _ _ rest <;> rfl
    cases int128Get64 (min (base + remain) (addrrangeEnd range.addr) - base) with
    | none => rfl
    | some run =>
      simp only [bind_some, ih]
      cases fillGaps fr _ _ _ rest <;> rfl

/-- Flags of a parent are or-ed into every range rendered below it. -/
theorem renderSelf_orFlags (info content view base clip readonly nonvolatile extra extra') :
    renderSelf globalDirtyLog info content (view.map (·.orFlags extra extra'))
      base clip (readonly || extra) (nonvolatile || extra') =
      (renderSelf globalDirtyLog info content view base clip readonly nonvolatile).map
        (List.map (·.orFlags extra extra')) := by
  unfold renderSelf
  split
  · cases int128Get64 (clip.start - base) with
    | none => rfl
    | some offset =>
      exact fillGaps_orFlags
        ⟨info.id, 0, clip, memoryRegionGetDirtyLogMask globalDirtyLog content,
          content.romdMode, readonly, nonvolatile⟩ clip.start offset clip.size view extra extra'
  · rfl

mutual

/-- Rendering with further flags adds them to every range. -/
theorem renderMemoryRegion_orFlags (mr view base clip readonly nonvolatile extra extra') :
    renderMemoryRegion globalDirtyLog mr (view.map (·.orFlags extra extra'))
      base clip (readonly || extra) (nonvolatile || extra') =
      (renderMemoryRegion globalDirtyLog mr view base clip readonly nonvolatile).map
        (List.map (·.orFlags extra extra')) := by
  match mr with
  | .alias info aliasOffset _ target =>
    rw [renderMemoryRegion, renderMemoryRegion]
    split
    · rfl
    dsimp only
    split
    · rfl
    · rw [Bool.or_right_comm, Bool.or_right_comm nonvolatile]
      exact renderMemoryRegion_orFlags target _ _ _ _ _ _ _
  | .region info content subs =>
    rw [renderMemoryRegion, renderMemoryRegion]
    split
    · rfl
    dsimp only
    split
    · rfl
    · rw [Bool.or_right_comm, Bool.or_right_comm nonvolatile, renderSubregions_orFlags subs]
      cases renderSubregions globalDirtyLog subs view _ _ _ _ with
      | none => rfl
      | some middle => exact renderSelf_orFlags _ _ _ _ _ _ _ _ _

theorem renderSubregions_orFlags (subs view base clip readonly nonvolatile extra extra') :
    renderSubregions globalDirtyLog subs (view.map (·.orFlags extra extra')) base clip
        (readonly || extra) (nonvolatile || extra') =
      (renderSubregions globalDirtyLog subs view base clip readonly nonvolatile).map
        (List.map (·.orFlags extra extra')) := by
  match subs with
  | [] => rfl
  | subregion :: rest =>
    rw [renderSubregions, renderSubregions, renderMemoryRegion_orFlags subregion]
    cases renderMemoryRegion globalDirtyLog subregion view base clip readonly nonvolatile with
    | none => rfl
    | some middle => exact renderSubregions_orFlags rest _ _ _ _ _ _ _

end

/-- Only the part of the clip inside the region matters. -/
theorem renderMemoryRegion_clip (mr view base) {clip clip'}
    (readonly nonvolatile) (meets : addrrangeIntersects ⟨base + mr.info.addr, mr.info.size⟩ clip =
      addrrangeIntersects ⟨base + mr.info.addr, mr.info.size⟩ clip')
    (common : addrrangeIntersection ⟨base + mr.info.addr, mr.info.size⟩ clip =
      addrrangeIntersection ⟨base + mr.info.addr, mr.info.size⟩ clip') :
    renderMemoryRegion globalDirtyLog mr view base clip readonly nonvolatile =
      renderMemoryRegion globalDirtyLog mr view base clip' readonly nonvolatile := by
  match mr with
  | .alias .. | .region .. =>
    simp only [info_alias, info_region] at meets common
    rw [renderMemoryRegion, renderMemoryRegion]
    dsimp only
    rw [meets, common]

/-- Disabled children render nothing. -/
theorem renderSubregions_enabled (subs view base clip readonly nonvolatile) :
    renderSubregions globalDirtyLog subs view base clip readonly nonvolatile =
      renderSubregions globalDirtyLog (enabledChildren subs) view base
          clip readonly nonvolatile := by
  induction subs generalizing view with
  | nil => rfl
  | cons child rest ih =>
    rw [enabledChildren_cons]
    split
    case isFalse disabled =>
      have skipped : renderMemoryRegion globalDirtyLog child view base clip readonly nonvolatile =
          some view := by
        match child with
        | .alias .. | .region .. =>
          simp only [info_alias, info_region] at disabled
          rw [renderMemoryRegion, if_pos (by simp [disabled])]
      rw [renderSubregions, skipped]
      exact ih view
    case isTrue =>
      rw [renderSubregions, renderSubregions]
      cases renderMemoryRegion globalDirtyLog child view base clip readonly nonvolatile with
      | none => rfl
      | some middle => exact ih middle

/-- Below a clip with its start, a skipped level renders as the next. -/
theorem SkipStep.render (step : SkipStep mr next) (view) {base clip} (readonly nonvolatile)
    (nonempty : 0 < next.info.size) (placed : addrrangeContains clip (base + mr.info.addr)) :
    renderMemoryRegion globalDirtyLog mr view base clip readonly nonvolatile =
      renderMemoryRegion globalDirtyLog next view (base + mr.info.addr - next.info.addr) clip
        (readonly || mr.info.readonly) (nonvolatile || mr.info.nonvolatile) := by
  have smaller : next.info.size ≤ mr.info.size := by cases step <;> assumption
  have enabled : mr.info.enabled := by cases step <;> assumption
  obtain ⟨lower, upper⟩ := (addrrangeContains_iff _ _).mp placed
  have meets : addrrangeIntersects ⟨base + mr.info.addr, mr.info.size⟩ clip := by
    refine addrrangeIntersects_of_common ?_ placed
    rw [addrrangeContains_iff]
    exact ⟨le_refl _, by change _ < base + mr.info.addr + mr.info.size; omega⟩
  -- The extent of the skipped level clips away nothing of the next.
  have narrowed : renderMemoryRegion globalDirtyLog next view (base + mr.info.addr - next.info.addr)
        (addrrangeIntersection ⟨base + mr.info.addr, mr.info.size⟩ clip)
          (readonly || mr.info.readonly) (nonvolatile || mr.info.nonvolatile) =
      renderMemoryRegion globalDirtyLog next view (base + mr.info.addr - next.info.addr) clip
        (readonly || mr.info.readonly) (nonvolatile || mr.info.nonvolatile) := by
    have pos : base + mr.info.addr - next.info.addr + next.info.addr =
      base + mr.info.addr := by omega
    apply renderMemoryRegion_clip
    · rw [pos, Bool.eq_iff_iff]
      simp only [addrrangeIntersects, Bool.or_eq_true, addrrangeContains_iff,
        addrrangeIntersection, addrrangeEnd]
      omega
    · rw [pos]
      simp only [addrrangeIntersection, addrrangeEnd, AddrRange.mk.injEq]
      omega
  rw [← narrowed]
  cases step with
  | wholeAlias _ _ =>
    rw [info_alias] at *
    rw [renderMemoryRegion]
    simp [enabled, meets]
  | onlyChild _ passive only atZero _ =>
    rw [info_region] at *
    rw [renderMemoryRegion]
    simp only [enabled, meets, Bool.not_true, Bool.false_eq_true, if_false]
    rw [renderSubregions_enabled, only, atZero, show ((0 : Nat) : Int) = 0 from rfl, Int.sub_zero]
    simp only [renderSubregions, renderSelf, passive, Bool.false_eq_true, if_false]
    simp

theorem Skips.size_le (skips : Skips mr last readonly nonvolatile) :
    last.info.size ≤ mr.info.size := by
  induction skips with
  | refl => exact le_refl _
  | step step _ ih =>
    cases step with
    | wholeAlias _ fits => exact le_trans ih fits
    | onlyChild _ _ _ _ fits => exact le_trans ih fits

/-- Rendering from a skipped root is rendering from the one it stands for. -/
theorem Skips.render (skips : Skips mr last readonly nonvolatile) (view) {base clip}
    (above above') (nonempty : 0 < last.info.size)
    (placed : addrrangeContains clip (base + mr.info.addr)) :
    renderMemoryRegion globalDirtyLog mr view base clip above above' =
      renderMemoryRegion globalDirtyLog last view (base + mr.info.addr - last.info.addr) clip
        (above || readonly) (above' || nonvolatile) := by
  induction skips generalizing base above above' with
  | refl => simp
  | @step mr next last readonly nonvolatile step later ih =>
    have pos : 0 < next.info.size := lt_of_lt_of_le nonempty later.size_le
    -- Each level is rendered at the position of the first.
    have position : base + mr.info.addr - next.info.addr + next.info.addr =
      base + mr.info.addr := by omega
    rw [step.render view above above' pos placed, ih _ _ nonempty (by rw [position]; exact placed),
      position, Bool.or_assoc, Bool.or_assoc]

/-- The walk returns the last region, or nothing if it cannot answer. -/
theorem LastRegion.root (final : LastRegion mr) : memoryRegionGetFlatviewRoot mr = some mr ∨
      memoryRegionGetFlatviewRoot mr = none ∧ ∀ offset, resolve mr offset false false = none := by
  cases enabled : mr.info.enabled with
  | false =>
    refine .inr ⟨?_, fun offset => resolve_outside _ _ _ _ (by simp [enabled])⟩
    match mr with
    | .alias info aliasOffset _ target => simp_all [memoryRegionGetFlatviewRoot]
    | .region info content subs => simp_all [memoryRegionGetFlatviewRoot]
  | true =>
    match mr with
    | .alias info aliasOffset offset_lt target =>
      rw [info_alias] at enabled
      left
      rw [memoryRegionGetFlatviewRoot]
      -- A whole alias would have been skipped.
      have partly : ¬ (aliasOffset = 0 ∧ target.info.size ≤ info.size) := by
        intro ⟨atZero, fits⟩
        subst atZero
        exact final target (.wholeAlias enabled fits)
      simp [enabled, partly]
    | .region info content subs =>
      rw [info_region] at enabled
      rw [memoryRegionGetFlatviewRoot]
      simp only [enabled, Bool.not_true, Bool.false_eq_true, if_false]
      cases terminates : content.terminates with
      | true =>
        left
        simp
      | false =>
        simp only [Bool.not_false, if_true]
        have scan := scanChildren_zero info.size subs 0
        split at scan
        case h_1 children =>
          right
          rw [scan]
          refine ⟨rfl, fun offset => ?_⟩
          rw [resolve]
          simp only [resolveFirst_enabled subs, children, resolveFirst, terminates]
          simp
        case h_2 child children =>
          left
          obtain ⟨index, scanned, _⟩ := scan
          have partly : ¬ (child.info.addr = 0 ∧ child.info.size ≤ info.size) :=
            fun ⟨atZero, fits⟩ => final child (.onlyChild enabled terminates children atZero fits)
          rw [scanned]
          simp [partly]
        case h_3 =>
          left
          rw [scan]
          rfl

variable {view : FlatView}

theorem eq_nil_of_silent {bound} (ordered : ViewFrom bound view)
    (silent : ∀ addr, viewAt view addr = none) : view = [] := by
  cases view with
  | nil => rfl
  | cons range rest =>
    obtain ⟨_, nonempty, _⟩ := ordered
    have answer := silent range.first
    rw [viewAt_cons, if_pos ⟨le_refl _, nonempty⟩] at answer
    simp at answer

/-- The view shared by the aliases of a root holds the root's own answers. -/
theorem shared_spec (final : LastRegion last) {shared}
    (generated : generateMemoryTopology globalDirtyLog (memoryRegionGetFlatviewRoot last) =
      some shared) :
    ViewFrom 0 shared ∧
      ∀ address, viewAt shared address =
        clippedTo wholeSpace (fun address => resolve last (address - last.info.addr) false false)
            address := by
  rcases final.root with found | ⟨found, silent⟩
  · rw [found] at generated
    exact generateMemoryTopology_spec generated
  rw [found] at generated
  simp only [generateMemoryTopology, flatviewSimplify] at generated
  cases generated
  refine ⟨trivial, fun address => ?_⟩
  simp [clippedTo, silent]

/-- Nothing of a region is visible when it is placed at an address. -/
def Invisible (mr : MemoryRegion) (placement : Int) : Prop :=
  ∀ offset answer, resolve mr offset false false = some answer → twoTo64 ≤ offset + placement

/-- Every visible answer of a region in place has the flags. -/
def FlagsPresent (mr : MemoryRegion) (readonly nonvolatile : Bool) : Prop :=
  ∀ offset answer, resolve mr offset false false = some answer → offset + mr.info.addr < twoTo64 →
    answer.orFlags readonly nonvolatile = answer

/-- When sharing is transparent: the last region shows nothing at either place, or the skipped
levels leave it at its own address and their flags are present already. -/
def SkipsNothingVisible (mr : MemoryRegion) : Prop :=
  ∃ last readonly nonvolatile, Skips mr last readonly nonvolatile ∧ LastRegion last ∧
    (Invisible last mr.info.addr ∧ Invisible last last.info.addr ∨
      mr.info.addr = last.info.addr ∧ FlagsPresent last readonly nonvolatile)

/-- A region outside the address space answers nowhere in it. -/
theorem Invisible.silent {place} (invisible : Invisible mr place) (readonly nonvolatile addr) :
    clippedTo wholeSpace (fun addr => resolve mr (addr - place) readonly nonvolatile) addr =
        none := by
  rw [clippedTo]
  split
  · rename_i clipped
    have flags := resolve_orFlags mr (addr - place) false false readonly nonvolatile
    rw [Bool.false_or, Bool.false_or] at flags
    rw [flags]
    cases resolved : resolve mr (addr - place) false false with
    | none => rfl
    | some answer =>
      have beyond := invisible _ _ resolved
      have := (addrrangeContains_iff _ _).mp clipped
      simp only [wholeSpace] at this
      omega
  · rfl

theorem clippedTo_inside {answer address} (lower : 0 ≤ address)
    (upper : address < twoTo64) : clippedTo wholeSpace answer address = answer address := by
  refine if_pos ((addrrangeContains_iff _ _).mpr ?_)
  exact ⟨lower, by simpa [wholeSpace] using upper⟩

/-- A region that shows the same addresses at two places shows none. -/
theorem invisible_of_shift {place place'} (nonneg : 0 ≤ place) (before : place < place')
    (same : ∀ addr, 0 ≤ addr → addr < twoTo64 →
      (resolve mr (addr - place) false false).isSome =
        (resolve mr (addr - place') false false).isSome) :
    Invisible mr place ∧ Invisible mr place' := by
  -- A visible offset would have a smaller one that far below it, and so on without end.
  have none_visible : ∀ (n : Nat) (answer : Resolution), resolve mr n false false = some answer →
      twoTo64 ≤ n + place := by
    intro n
    induction n using Nat.strongRecOn with
    | ind n ih =>
      intro answer resolved
      refine Int.not_lt.mp fun visible => ?_
      have moved := same (n + place) (by omega) visible
      rw [Int.add_sub_cancel, resolved, isSome_some] at moved
      obtain ⟨answer', resolved'⟩ := isSome_iff_exists.mp moved.symm
      obtain ⟨_, lower, _⟩ := resolve_extent resolved'
      obtain ⟨smaller, smaller_eq⟩ := Int.eq_ofNat_of_zero_le lower
      rw [smaller_eq] at resolved'
      have := ih smaller (by omega) answer' resolved'
      omega
  have lowest : Invisible mr place := by
    intro offset answer resolved
    obtain ⟨n, rfl⟩ := Int.eq_ofNat_of_zero_le (resolve_extent resolved).2.1
    exact none_visible n answer resolved
  refine ⟨lowest, fun offset answer resolved => ?_⟩
  have := lowest offset answer resolved
  omega

/-- Equal views: the last region is invisible, or in place with all flags. -/
theorem skipsNothing_of_eq (skips : Skips mr last readonly nonvolatile)
    (shared : ∀ addr, viewAt view addr =
      clippedTo wholeSpace (fun addr => resolve last (addr - last.info.addr) false false) addr)
    (own : ∀ addr, viewAt view addr =
      clippedTo wholeSpace (fun addr => resolve mr (addr - mr.info.addr) false false) addr) :
    Invisible last mr.info.addr ∧ Invisible last last.info.addr ∨
      mr.info.addr = last.info.addr ∧ FlagsPresent last readonly nonvolatile := by
  -- Both views, read inside the address space, in terms of the last region.
  have same : ∀ addr, 0 ≤ addr → addr < twoTo64 →
      resolve last (addr - last.info.addr) false false =
        (resolve last (addr - mr.info.addr) false false).map (·.orFlags readonly nonvolatile) := by
    intro addr lower upper
    have equal := (shared addr).symm.trans (own addr)
    rwa [clippedTo_inside lower upper, clippedTo_inside lower upper, skips.resolve,
      resolve_orFlags] at equal
  rcases lt_trichotomy mr.info.addr last.info.addr with before | placed | after
  · left
    exact invisible_of_shift (by omega) (by omega) fun addr lower upper => by
      rw [same addr lower upper, isSome_map]
  · right
    refine ⟨placed, fun offset answer resolved visible => ?_⟩
    have nonneg := (resolve_extent resolved).2.1
    have equal := same (offset + last.info.addr) (by omega) visible
    rw [placed, Int.add_sub_cancel, resolved, map_some, Option.some.injEq] at equal
    exact equal.symm
  · left
    exact (invisible_of_shift (by omega) (by omega) fun addr lower upper => by
      rw [same addr lower upper, isSome_map]).symm

/-- The last region, in place with the flags, renders as the chain. -/
theorem render_eq_of_flagsPresent (skips : Skips mr last readonly nonvolatile)
    (placed : mr.info.addr = last.info.addr)
    (present : FlagsPresent last readonly nonvolatile) (nonempty : 0 < last.info.size)
    (rendered : renderMemoryRegion globalDirtyLog last [] 0 wholeSpace false false = some view) :
    renderMemoryRegion globalDirtyLog mr [] 0 wholeSpace false false = some view := by
  have inside : addrrangeContains wholeSpace (0 + mr.info.addr) := by
    have := mr.info.addr_lt
    rw [addrrangeContains_iff]
    simp only [wholeSpace, twoTo64]
    omega
  have pos : (0 : Int) + mr.info.addr - last.info.addr = 0 := by omega
  have flags := @renderMemoryRegion_orFlags globalDirtyLog last [] 0 wholeSpace false false
    readonly nonvolatile
  rw [skips.render [] false false nonempty inside, pos]
  rw [map_nil, rendered] at flags
  refine flags.trans (congrArg some ?_)
  -- Every range has the flags, because its first address has an answer with them.
  obtain ⟨ordered, answers⟩ :=
    renderMemoryRegion_spec last (show ViewFrom 0 [] from trivial) (le_refl _)
    (by decide) rendered
  have unchanged : ∀ range ∈ view, range.orFlags readonly nonvolatile = range := by
    intro range mem
    obtain ⟨_, nonempty⟩ := ordered.bounds mem
    have first : addrrangeContains range.addr range.first :=
      (addrrangeContains_iff _ _).mpr ⟨le_refl _, nonempty⟩
    have answer := answers range.first
    rw [viewAt_of_mem ordered mem first, viewAt_nil, none_or, clippedTo] at answer
    split at answer
    · rename_i clipped
      have visible := ((addrrangeContains_iff _ _).mp clipped).2
      simp only [wholeSpace, Int.zero_add] at visible answer
      have flags := present _ _ answer.symm (by omega)
      -- The answer and the range carry the same two flags.
      simp only [FlatRange.answer, Resolution.orFlags, Resolution.mk.injEq, true_and] at flags
      rw [FlatRange.orFlags, flags.1, flags.2]
    · simp at answer
  calc view.map (·.orFlags readonly nonvolatile)
      = view.map id := map_congr_left unchanged
    _ = view := List.map_id view

/-- Sharing a root is transparent exactly when nothing visible is skipped, if both renderings
return. -/
theorem flatviewRoot_transparent_iff (globalDirtyLog : Bool)
    (mr : MemoryRegion) (own shared : FlatView)
    (generated : generateMemoryTopology globalDirtyLog (some mr) = some own)
    (generated' : generateMemoryTopology globalDirtyLog (memoryRegionGetFlatviewRoot mr) =
      some shared) :
    shared = own ↔ SkipsNothingVisible mr := by
  obtain ⟨ordered, answers⟩ := generateMemoryTopology_spec generated
  constructor
  · intro equal
    subst equal
    obtain ⟨last, readonly, nonvolatile, skips, final⟩ := exists_skips mr
    rw [skips.root] at generated'
    exact ⟨last, readonly, nonvolatile, skips, final,
      skipsNothing_of_eq skips (shared_spec final generated').2 answers⟩
  · intro ⟨last, readonly, nonvolatile, skips, final, condition⟩
    rw [skips.root] at generated'
    obtain ⟨ordered', answers'⟩ := shared_spec final generated'
    -- A last region that shows nothing leaves both views empty.
    have both_empty : Invisible last mr.info.addr →
        Invisible last last.info.addr → shared = own := by
      intro invisible invisible'
      have silent : own = [] := eq_nil_of_silent ordered fun address => by
        simp only [answers, skips.resolve, invisible.silent]
      have silent' : shared = [] := eq_nil_of_silent ordered' fun address => by
        rw [answers', invisible'.silent]
      rw [silent, silent']
    rcases condition with ⟨invisible, invisible'⟩ | ⟨placed, present⟩
    · exact both_empty invisible invisible'
    by_cases invisible : Invisible last last.info.addr
    · exact both_empty (placed ▸ invisible) invisible
    -- A visible answer makes the last region nonempty, and it is then the root.
    simp only [Invisible, not_forall] at invisible
    obtain ⟨offset, answer, resolved, _⟩ := invisible
    obtain ⟨_, _, _⟩ := resolve_extent resolved
    rcases final.root with found | ⟨_, silent⟩
    · rw [found] at generated'
      simp only [generateMemoryTopology, bind_eq_bind, bind_eq_some_iff, Option.pure_def,
        Option.some.injEq] at generated generated'
      obtain ⟨view, rendered, rfl⟩ := generated
      obtain ⟨view', rendered', rfl⟩ := generated'
      have equal := render_eq_of_flagsPresent skips placed present (by omega) rendered'
      rw [rendered, Option.some.injEq] at equal
      rw [equal]
    · simp [silent] at resolved

/-- RAM behind a read-only alias of the same extent. -/
def readonlyAliasRoot : MemoryRegion :=
  .alias ⟨1, true, true, false, 0, 0x1000, 0, zero_lt_two_pow_64,
    page_le_two_pow_64⟩ 0 zero_lt_two_pow_64
    (.region ⟨0, true, false, false, 0, 0x1000, 0, zero_lt_two_pow_64, page_le_two_pow_64⟩
      ⟨true, true, 0, true⟩ [])

/-- The shared view of a read-only alias of RAM is writable, the alias is not. -/
theorem flatviewRoot_loses_readonly :
    ∃ own shared, generateMemoryTopology false (some readonlyAliasRoot) = some own ∧
      generateMemoryTopology false (memoryRegionGetFlatviewRoot readonlyAliasRoot) = some shared ∧
      own.map (·.readonly) = [true] ∧ shared.map (·.readonly) = [false] ∧ shared ≠ own :=
  ⟨_, _, rfl, rfl, rfl, rfl, by decide⟩

theorem ramAddr_lt_two_pow_64 : 0x100 < 2 ^ 64 := by decide

theorem romAddr_lt_two_pow_64 : 0x8000 < 2 ^ 64 := by decide

/-- A bus master container with one alias onto system memory. -/
def busMasterContainer : MemoryRegion :=
  let system : MemoryRegion :=
    .region ⟨0, true, false, false, 0, 2 ^ 64, 0, zero_lt_two_pow_64,
      two_pow_64_le_self⟩ ⟨false, true, 0, false⟩
      [.region ⟨1, true, false, false, 0x100, 0x1000, 0, ramAddr_lt_two_pow_64, page_le_two_pow_64⟩
        ⟨true, true, 0, true⟩ [],
       .region ⟨2, true, true, false, 0x8000, 0x1000, 0, romAddr_lt_two_pow_64, page_le_two_pow_64⟩
         ⟨true, true, 0, true⟩ []]
  .region ⟨4, true, false, false, 0, 2 ^ 64, 0, zero_lt_two_pow_64,
    two_pow_64_le_self⟩ ⟨false, true, 0, false⟩
    [.alias ⟨3, true, false, false, 0, 2 ^ 64, 0, zero_lt_two_pow_64, two_pow_64_le_self⟩ 0
      zero_lt_two_pow_64 system]

/-- The bus master shares the view of system memory, and nothing visible is skipped. -/
theorem flatviewRoot_transparent_busMaster :
    ∃ own shared, generateMemoryTopology false (some busMasterContainer) = some own ∧
      generateMemoryTopology false (memoryRegionGetFlatviewRoot busMasterContainer) = some shared ∧
      shared.length = 2 ∧ SkipsNothingVisible busMasterContainer :=
  ⟨_, _, rfl, rfl, rfl, (flatviewRoot_transparent_iff false busMasterContainer _ _ rfl rfl).mp rfl⟩

end Qemu.Memory
