import Qemu.Memory.Resolve

/-! When numbers fit 64 bits: the assertions of `render_memory_region`. -/

namespace Qemu.Memory

open Tiling List Option

/-- A region that answers itself, as rendering reaches it: where it is placed, and what is visible.
-/
structure Visit where
  info : RegionInfo
  content : ContentInfo
  base : Int
  clip : AddrRange
  readonly : Bool
  nonvolatile : Bool

def Visit.render (globalDirtyLog : Bool) (view : FlatView) (visit : Visit) : Option FlatView :=
  renderSelf globalDirtyLog visit.info visit.content view visit.base visit.clip
    visit.readonly visit.nonvolatile

mutual

/-- The terminating regions inside a clip, as they are rendered. -/
def visits : MemoryRegion → Int → AddrRange → Bool → Bool → List Visit
  | .alias info aliasOffset _ target, base, clip, readonly, nonvolatile =>
    if !info.enabled then [] else
    if !addrrangeIntersects ⟨base + info.addr, info.size⟩ clip then [] else
    visits target (base + info.addr - target.info.addr - aliasOffset)
      (addrrangeIntersection ⟨base + info.addr, info.size⟩ clip) (readonly || info.readonly)
      (nonvolatile || info.nonvolatile)
  | .region info content subregions, base, clip, readonly, nonvolatile =>
    if !info.enabled then [] else
    if !addrrangeIntersects ⟨base + info.addr, info.size⟩ clip then [] else
    let clip := addrrangeIntersection ⟨base + info.addr, info.size⟩ clip
    let own : Visit := ⟨info, content, base + info.addr, clip, readonly || info.readonly,
      nonvolatile || info.nonvolatile⟩
    subregionVisits subregions own.base clip own.readonly own.nonvolatile ++
      if content.terminates then [own] else []

def subregionVisits : List MemoryRegion → Int → AddrRange → Bool → Bool → List Visit
  | [], _, _, _, _ => []
  | subregion :: rest, base, clip, readonly, nonvolatile =>
    visits subregion base clip readonly nonvolatile ++ subregionVisits rest base
      clip readonly nonvolatile

end

theorem foldlM_own (globalDirtyLog : Bool) (own : Visit) (view : FlatView) :
    (if own.content.terminates then [own] else []).foldlM (Visit.render globalDirtyLog) view =
      own.render globalDirtyLog view := by
  cases terminates : own.content.terminates with
  | false => simp [Visit.render, renderSelf, terminates]
  | true => simp

mutual

/-- Rendering is a fold over the leaves it visits, in order. -/
theorem renderMemoryRegion_eq_foldlM (globalDirtyLog : Bool) (mr : MemoryRegion)
    (view : FlatView) (base : Int) (clip : AddrRange) (readonly nonvolatile : Bool) :
    renderMemoryRegion globalDirtyLog mr view base clip readonly nonvolatile =
      (visits mr base clip readonly nonvolatile).foldlM (Visit.render globalDirtyLog) view := by
  match mr with
  | .alias info aliasOffset _ target =>
    rw [renderMemoryRegion, visits]
    dsimp only
    split
    · rfl
    split
    · rfl
    exact renderMemoryRegion_eq_foldlM globalDirtyLog target view _ _ _ _
  | .region info content subs =>
    rw [renderMemoryRegion, visits]
    dsimp only
    split
    · rfl
    split
    · rfl
    -- The subregions hide the region itself, so its own visit is the last one.
    simp only [foldlM_append, renderSubregions_eq_foldlM globalDirtyLog subs]
    exact bind_congr fun middle =>
      (foldlM_own globalDirtyLog ⟨info, content, _, _, _, _⟩ middle).symm

theorem renderSubregions_eq_foldlM (globalDirtyLog subs view base clip readonly nonvolatile) :
    renderSubregions globalDirtyLog subs view base clip readonly nonvolatile =
      (subregionVisits subs base clip readonly nonvolatile).foldlM
          (Visit.render globalDirtyLog) view := by
  match subs with
  | [] => rfl
  | subregion :: rest =>
    rw [renderSubregions, subregionVisits, foldlM_append,
      renderMemoryRegion_eq_foldlM globalDirtyLog subregion]
    exact bind_congr fun middle => renderSubregions_eq_foldlM globalDirtyLog rest middle _ _ _ _

end

/-- A clip inside the address space. -/
structure InSpace (clip : AddrRange) : Prop where
  start_nonneg : 0 ≤ clip.start
  size_nonneg : 0 ≤ clip.size
  stop_le : clip.start + clip.size ≤ twoTo64

theorem InSpace.intersection {clip : AddrRange} (inside : InSpace clip) {base : Int} {size : Nat}
    (common : addrrangeIntersects ⟨base, size⟩ clip) :
    InSpace (addrrangeIntersection ⟨base, size⟩ clip) := by
  obtain ⟨nonneg, length, stop⟩ := inside
  simp only [addrrangeIntersects, Bool.or_eq_true, addrrangeContains_iff] at common
  constructor <;> simp only [addrrangeIntersection, addrrangeEnd] <;> omega

/-- A visible visit, at an offset that fits 64 bits. -/
structure Visit.Sound (visit : Visit) : Prop where
  inside : InSpace visit.clip
  offset_nonneg : 0 ≤ visit.clip.start - visit.base
  offset_lt : visit.clip.start - visit.base < twoTo64
  terminates : visit.content.terminates = true
  stop_le : visit.clip.start + visit.clip.size ≤ visit.base + visit.info.size

mutual

/-- A region that rendering reaches is placed within 64 bits of its visible part. -/
theorem sound_of_mem_visits (mr) {base : Int} {clip : AddrRange} {readonly nonvolatile : Bool}
    (inside : InSpace clip) {visit : Visit}
    (mem : visit ∈ visits mr base clip readonly nonvolatile) : visit.Sound := by
  match mr with
  | .alias info aliasOffset _ target =>
    rw [visits] at mem
    split at mem
    · simp at mem
    split at mem
    · simp at mem
    rename_i common
    exact sound_of_mem_visits target (inside.intersection (by simpa using common)) mem
  | .region info content subs =>
    rw [visits] at mem
    split at mem
    · simp at mem
    split at mem
    · simp at mem
    rename_i common
    have common : addrrangeIntersects ⟨base + info.addr, info.size⟩ clip := by simpa using common
    have inside' := inside.intersection common
    rcases mem_append.mp mem with below | own
    · exact sound_of_mem_subregionVisits subs inside' below
    -- The region itself starts no later than its visible part, which begins within its size.
    split at own
    · rename_i terminates
      rw [mem_singleton] at own
      subst own
      have size := info.size_le
      simp only [addrrangeIntersects, Bool.or_eq_true, addrrangeContains_iff] at common
      refine ⟨inside', ?_, ?_, terminates, ?_⟩ <;>
        simp only [addrrangeIntersection, addrrangeEnd, twoTo64] at * <;> omega
    · simp at own

theorem sound_of_mem_subregionVisits (subs) {base : Int} {clip : AddrRange}
    {readonly nonvolatile : Bool} (inside : InSpace clip) {visit : Visit}
    (mem : visit ∈ subregionVisits subs base clip readonly nonvolatile) : visit.Sound := by
  match subs with
  | [] => simp [subregionVisits] at mem
  | subregion :: rest =>
    rw [subregionVisits] at mem
    rcases mem_append.mp mem with first | later
    · exact sound_of_mem_visits subregion inside first
    · exact sound_of_mem_subregionVisits rest inside later

end

/-- The ranges of a view are in order and inside the address space. -/
structure ViewInSpace (view : FlatView) : Prop where
  ordered : ViewFrom 0 view
  stop_le : ∀ range ∈ view, range.stop ≤ twoTo64

def Full (view : FlatView) : Prop := ∃ range, view = [range] ∧ range.addr = wholeSpace

theorem int128Get64_of_fits {a : Int} (nonneg : 0 ≤ a) (below : a < twoTo64) :
    int128Get64 a = some a.toNat :=
  if_pos ⟨nonneg, below⟩

theorem hidden_run_bounds {base remain stop : Int} (length : 0 ≤ remain) (ahead : base ≤ stop) :
    0 ≤ min (base + remain) stop - base ∧ min (base + remain) stop - base ≤ remain ∧
      min (base + remain) stop ≤ stop := by
  omega

theorem ViewInSpace.tail {range : FlatRange} {rest : FlatView}
    (inside : ViewInSpace (range :: rest)) : ViewInSpace rest := by
  obtain ⟨⟨lower, nonempty, later⟩, stops⟩ := inside
  exact ⟨later.mono (by omega), fun other mem => stops other (mem_cons_of_mem _ mem)⟩

/-- A range from 0 to 2^64 is the whole view. -/
theorem ViewInSpace.full_of_reaches {range : FlatRange} {rest : FlatView}
    (inside : ViewInSpace (range :: rest))
    (first : range.first ≤ 0) (stop : twoTo64 ≤ range.stop) : Full (range :: rest) := by
  obtain ⟨⟨lower, _, later⟩, stops⟩ := inside
  have ends := stops range mem_cons_self
  cases rest with
  | nil =>
    refine ⟨range, rfl, ?_⟩
    -- The position is zero and the length two to the 64, so the ranges agree field by field.
    have start_eq : range.addr.start = 0 := by
      change 0 ≤ range.addr.start at lower
      change range.addr.start ≤ 0 at first
      omega
    have size_eq : range.addr.size = twoTo64 := by
      change range.addr.start + range.addr.size ≤ _ at ends
      change _ ≤ range.addr.start + range.addr.size at stop
      omega
    rw [wholeSpace, ← start_eq, ← size_eq]
  | cons other _ =>
    have otherStops := stops other (by simp)
    obtain ⟨after, nonempty, _⟩ := later
    omega

/-- Gap filling can fail only by hiding the whole address space behind a single range. Other runs
are shorter, and after the first one the position alone rules the failure out. -/
theorem fillGaps_succeeds {fr : FlatRange} (base remain offset)
    (viewInside : ViewInSpace view) (nonneg : 0 ≤ base) (length : 0 ≤ remain)
    (inside : base + remain ≤ twoTo64) (clear : 0 < base ∨ remain < twoTo64 ∨ ¬ Full view) :
    ∃ view', fillGaps fr base offset remain view = some view' := by
  induction view generalizing base remain offset with
  | nil =>
    rw [fillGaps]
    split <;> exact ⟨_, rfl⟩
  | cons range rest ih =>
    have reaches := viewInside.full_of_reaches
    obtain ⟨⟨lower, nonempty, _⟩, stops⟩ := id viewInside
    have stop := stops range mem_cons_self
    have stop_eq : addrrangeEnd range.addr = range.stop := rfl
    have first_eq : range.addr.start = range.first := rfl
    rw [fillGaps, stop_eq, first_eq]
    dsimp only
    split
    · exact ⟨_, rfl⟩
    split
    · -- The range lies behind the position.
      obtain ⟨filledRest, done⟩ := ih base remain offset viewInside.tail nonneg
        length inside (.inl (by omega))
      exact ⟨range :: filledRest, by rw [done]; rfl⟩
    split
    · -- The gap ends where the range begins, and the hidden run where it stops.
      have started : 0 < min remain (range.first - base) := by omega
      have within : min remain (range.first - base) ≤ remain := min_le_left _ _
      have inGap : base + min remain (range.first - base) ≤ range.first := by omega
      generalize min remain (range.first - base) = now at *
      obtain ⟨nonneg', short, _⟩ : _ ∧ _ ∧
        min (base + now + (remain - now)) range.stop ≤ range.stop :=
        hidden_run_bounds (by omega) (by omega)
      generalize min (base + now + (remain - now)) range.stop - (base + now) = hidden at *
      rw [int128Get64_of_fits (by omega) (by omega), int128Get64_of_fits nonneg' (by omega)]
      obtain ⟨filledRest, done⟩ := ih (base + now + hidden) (remain - now - hidden)
        ((((offset + now.toNat) % 2 ^ 64) + hidden.toNat) % 2 ^ 64) viewInside.tail
          (by omega) (by omega) (by omega) (.inl (by omega))
      exact ⟨_ :: range :: filledRest, by simp only [bind_eq_bind, bind_some, done]; rfl⟩
    -- Only a range over the whole address space hides a run of that length.
    have below : min (base + remain) range.stop - base < twoTo64 := by
      by_contra whole
      rcases clear with past | short | notFull
      · omega
      · omega
      · exact notFull (reaches (by omega) (by omega))
    obtain ⟨nonneg', short, _⟩ : _ ∧ _ ∧ min (base + remain) range.stop ≤ range.stop :=
      hidden_run_bounds length (by omega)
    have started : 0 < min (base + remain) range.stop - base := by omega
    generalize min (base + remain) range.stop - base = hidden at *
    rw [int128Get64_of_fits nonneg' below]
    obtain ⟨filledRest, done⟩ :=
      ih (base + hidden) (remain - hidden) ((offset + hidden.toNat) % 2 ^ 64)
      viewInside.tail (by omega) (by omega) (by omega) (.inl (by omega))
    exact ⟨range :: filledRest, by simp only [bind_eq_bind, bind_some, done]; rfl⟩

theorem fillGaps_full (fr offset) (full : Full view) :
    fillGaps fr 0 offset twoTo64 view = none := by
  obtain ⟨range, rfl, whole⟩ := full
  simp [fillGaps, whole, wholeSpace, addrrangeEnd, twoTo64, int128Get64]

/-- Under a full view nothing is left to fill. -/
theorem fillGaps_hidden (fr) {base remain : Int} (offset) (full : Full view)
    (nonneg : 0 ≤ base) (length : 0 ≤ remain) (inside : base + remain ≤ twoTo64)
    (short : remain < twoTo64) : fillGaps fr base offset remain view = some view := by
  obtain ⟨range, rfl, whole⟩ := full
  rw [fillGaps, whole]
  by_cases zero : remain = 0
  · rw [if_pos zero]
  have stop_eq : addrrangeEnd wholeSpace = twoTo64 := rfl
  have first_eq : wholeSpace.start = 0 := rfl
  have run_eq : min (base + remain) twoTo64 - base = remain := by omega
  rw [if_neg zero, stop_eq, first_eq, if_neg (by omega), if_neg (by omega), run_eq]
  simp [int128Get64_of_fits length short, fillGaps]

/-- Filling gaps removes no range. -/
theorem fillGaps_sublist {fr : FlatRange} {view' : FlatView} {base remain : Int} {offset : Nat}
    (rendered : fillGaps fr base offset remain view = some view') : view.Sublist view' := by
  induction view generalizing view' base remain offset with
  | nil => exact nil_sublist _
  | cons range rest ih =>
    rw [fillGaps] at rendered
    split at rendered
    · rw [Option.some.injEq] at rendered
      exact rendered ▸ Sublist.refl _
    -- Each remaining branch puts the range back in front of what the rest became.
    split at rendered
    · simp only [bind_eq_bind, bind_eq_some_iff, Option.pure_def] at rendered
      obtain ⟨filledRest, recursive, ⟨⟩⟩ := rendered
      exact (ih recursive).cons_cons range
    split at rendered
    · simp only [bind_eq_bind, bind_eq_some_iff, Option.pure_def] at rendered
      obtain ⟨_, _, _, _, filledRest, recursive, ⟨⟩⟩ := rendered
      exact ((ih recursive).cons_cons range).cons _
    · simp only [bind_eq_bind, bind_eq_some_iff, Option.pure_def] at rendered
      obtain ⟨_, _, filledRest, recursive, ⟨⟩⟩ := rendered
      exact (ih recursive).cons_cons range

variable {globalDirtyLog : Bool} {visit : Visit} {view view' : FlatView}

/-- What a visited region puts into each of its ranges. -/
def Visit.template (globalDirtyLog : Bool) (visit : Visit) : FlatRange :=
  { mr := visit.info.id, offsetInRegion := 0, addr := visit.clip,
    dirtyLogMask := memoryRegionGetDirtyLogMask globalDirtyLog visit.content,
    romdMode := visit.content.romdMode, readonly := visit.readonly,
    nonvolatile := visit.nonvolatile }

theorem Visit.Sound.render_eq (sound : visit.Sound) :
    visit.render globalDirtyLog view = fillGaps (visit.template globalDirtyLog) visit.clip.start
      (visit.clip.start - visit.base).toNat visit.clip.size view := by
  rw [Visit.render, renderSelf, if_pos sound.terminates,
    int128Get64_of_fits sound.offset_nonneg sound.offset_lt]
  rfl

theorem Visit.Sound.view_inSpace (sound : visit.Sound) (inside : ViewInSpace view)
    (rendered : visit.render globalDirtyLog view = some view') : ViewInSpace view' := by
  obtain ⟨ordered, answers⟩ :=
    renderSelf_spec inside.ordered sound.inside.start_nonneg sound.inside.size_nonneg
    sound.stop_le rendered
  refine ⟨ordered, fun range mem => ?_⟩
  -- The last address of a range is answered by the old view or lies in the clip.
  have last : addrrangeContains range.addr (range.stop - 1) := by
    have nonempty := (ordered.bounds mem).2
    simp only [FlatRange.first, FlatRange.stop, addrrangeEnd] at nonempty
    rw [addrrangeContains_iff, FlatRange.stop, addrrangeEnd]
    omega
  have answer := viewAt_of_mem ordered mem last
  rw [answers] at answer
  cases before : viewAt view (range.stop - 1) with
  | some resolution =>
    obtain ⟨older, covered, _⟩ := map_eq_some_iff.mp before
    obtain ⟨olderMember, _, below⟩ := mem_of_covering covered
    have := inside.stop_le older olderMember
    omega
  | none =>
    rw [before, none_or, clippedTo] at answer
    split at answer
    · rename_i clipped
      have := (addrrangeContains_iff _ _).mp clipped
      have := sound.inside.stop_le
      omega
    · simp at answer

/-- Over a full view only a visit of the whole space fails. -/
theorem Visit.Sound.render_of_full (sound : visit.Sound) (full : Full view) :
    visit.render globalDirtyLog view = if visit.clip = wholeSpace then none else some view := by
  rw [sound.render_eq]
  split
  · rename_i whole
    rw [whole]
    exact fillGaps_full _ _ full
  rename_i narrower
  have short : visit.clip.size < twoTo64 := by
    by_contra long
    have eq_wholeSpace : visit.clip = wholeSpace := by
      obtain ⟨nonneg, _, stop⟩ := sound.inside
      have start_eq : visit.clip.start = 0 := by omega
      have size_eq : visit.clip.size = twoTo64 := by omega
      rw [wholeSpace, ← start_eq, ← size_eq]
    exact narrower eq_wholeSpace
  exact fillGaps_hidden _ _ full sound.inside.start_nonneg sound.inside.size_nonneg
    sound.inside.stop_le short

/-- Two visible parts are the whole space, with only empty ones before. -/
def overlaid : List AddrRange → Bool
  | [] => false
  | clip :: later => if clip.size = 0 then overlaid later else clip = wholeSpace &&
      later.contains wholeSpace

variable (globalDirtyLog : Bool) {run : List Visit}

section

variable (sound : ∀ visit ∈ run, visit.Sound)

include sound

/-- Once full, a later visit of the whole space makes the run fail. -/
theorem foldlM_of_full (full : Full view) :
    run.foldlM (Visit.render globalDirtyLog) view = none ↔
        (run.map Visit.clip).contains wholeSpace := by
  induction run with
  | nil => simp
  | cons visit later ih =>
    rw [foldlM_cons, (sound visit mem_cons_self).render_of_full full]
    have recursive := ih fun other mem => sound other (mem_cons_of_mem _ mem)
    split
    · rename_i whole
      simp [whole]
    · rename_i differ
      simpa [Ne.symm differ] using recursive

/-- A nonempty view short of the whole space makes no visit fail. -/
theorem foldlM_of_narrow (inside : ViewInSpace view) (notFull : ¬ Full view)
    (nonempty : view ≠ []) : run.foldlM (Visit.render globalDirtyLog) view ≠ none := by
  induction run generalizing view with
  | nil => simp
  | cons visit later ih =>
    have soundVisit := sound visit mem_cons_self
    have render_of_not_full : ∃ view', visit.render globalDirtyLog view = some view' ∧
        view.Sublist view' := by
      rw [soundVisit.render_eq]
      obtain ⟨view', rendered⟩ := fillGaps_succeeds visit.clip.start visit.clip.size _ inside
        soundVisit.inside.start_nonneg soundVisit.inside.size_nonneg
          soundVisit.inside.stop_le (.inr (.inr notFull))
      exact ⟨view', rendered, fillGaps_sublist rendered⟩
    obtain ⟨view', rendered, kept⟩ := render_of_not_full
    have inside' := soundVisit.view_inSpace inside rendered
    -- A full view has one range, so the old view would have been that range.
    have notFull' : ¬ Full view' := by
      intro ⟨range, single, whole⟩
      rw [single, sublist_singleton] at kept
      exact kept.elim nonempty fun same => notFull ⟨range, same, whole⟩
    have nonempty' : view' ≠ [] := by
      intro empty
      exact nonempty (sublist_nil.mp (empty ▸ kept))
    rw [foldlM_cons, rendered]
    exact ih (fun other mem => sound other (mem_cons_of_mem _ mem)) inside' notFull' nonempty'

/-- Rendering fails exactly when two visible parts are the whole space. -/
theorem foldlM_nil_eq_none_iff :
    run.foldlM (Visit.render globalDirtyLog) [] = none ↔ overlaid (run.map Visit.clip) := by
  induction run with
  | nil => simp [overlaid]
  | cons visit later ih =>
    have soundVisit := sound visit mem_cons_self
    have soundLater : ∀ other ∈ later, other.Sound :=
      fun other mem => sound other (mem_cons_of_mem _ mem)
    -- The first visible part becomes the only range of an empty view.
    have render_nil : ∃ range, range.addr = visit.clip ∧
      visit.render globalDirtyLog [] = some (if visit.clip.size =
        0 then [] else [range]) := by
      refine ⟨{ visit.template globalDirtyLog with
        offsetInRegion := (visit.clip.start - visit.base).toNat, addr := visit.clip }, rfl, ?_⟩
      rw [soundVisit.render_eq, fillGaps, ite_not]
      split <;> rfl
    obtain ⟨range, placed, rendered⟩ := render_nil
    have emptyInside : ViewInSpace [] := ⟨trivial, by simp⟩
    have inside := soundVisit.view_inSpace emptyInside rendered
    rw [foldlM_cons, rendered, map_cons, overlaid]
    by_cases empty : visit.clip.size = 0
    · -- An empty visible part leaves the view empty.
      simpa [empty] using ih soundLater
    rw [if_neg empty] at inside
    simp only [empty, if_false, bind_eq_bind, bind_some]
    by_cases whole : visit.clip = wholeSpace
    · rw [foldlM_of_full globalDirtyLog soundLater ⟨range, rfl, placed.trans whole⟩]
      simp [whole]
    -- A partial first range keeps the view from ever being full.
    have notFull : ¬ Full [range] := by
      rintro ⟨other, single, full⟩
      cases single
      exact whole (placed.symm.trans full)
    have succeeds := foldlM_of_narrow globalDirtyLog soundLater inside notFull (by simp)
    simp [succeeds, whole]

end

/-- The assertions of rendering hold exactly when the address space is not overlaid twice: when not
both the first terminating region with a visible part covers it all, and another one reached later
is visible over all of it. -/
theorem generateMemoryTopology_fits_iff (globalDirtyLog : Bool) (mr : MemoryRegion) :
    (∃ view, generateMemoryTopology globalDirtyLog (some mr) = some view) ↔
      overlaid ((visits mr 0 wholeSpace false false).map Visit.clip) = false := by
  have space : InSpace wholeSpace := ⟨le_refl _, by decide, by decide⟩
  have sound : ∀ visit ∈ visits mr 0 wholeSpace false false, visit.Sound := fun visit =>
    sound_of_mem_visits mr space
  have fails := foldlM_nil_eq_none_iff globalDirtyLog sound
  rw [← renderMemoryRegion_eq_foldlM] at fails
  rw [← Bool.not_eq_true, ← fails, generateMemoryTopology]
  cases renderMemoryRegion globalDirtyLog mr [] 0 wholeSpace false false with
  | none => simp
  | some view => simp

/-- A region over the whole address space that answers itself. -/
def backgroundRegion (id : Nat) : MemoryRegion :=
  .region ⟨id, true, false, false, 0, 2 ^ 64, 0, zero_lt_two_pow_64, two_pow_64_le_self⟩
    ⟨true, true, 0, false⟩ []

/-- Two overlapping regions over the whole address space cannot be rendered. -/
theorem two_backgrounds_fail :
    generateMemoryTopology false (some
      (.region ⟨0, true, false, false, 0, 2 ^ 64, 0, by decide, by decide⟩
      ⟨false, true, 0, false⟩ [backgroundRegion 1, backgroundRegion 2])) = none := by
  decide

end Qemu.Memory
