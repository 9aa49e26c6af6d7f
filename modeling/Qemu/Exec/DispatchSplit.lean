import Qemu.Exec.DispatchBuild

/-! Cutting sections at page boundaries, and the structure of a view. -/

namespace Qemu.Exec

open Memory List Nat MemoryRegionSection

variable (page : TargetPage)

/-- The pieces of a section from a page on: whole pages, and a part. -/
def splitAligned (sect : MemoryRegionSection) : List MemoryRegionSection :=
  if sect.size < page.size then [sect]
  else if sect.size % page.size = 0 then [sect]
  else
    let run := sect.size - sect.size % page.size
    [{ sect with size := run }, sect.advance run]

/-- The pieces of a section: the rest of its first page, and the next ones. -/
def splitSection (sect : MemoryRegionSection) : List MemoryRegionSection :=
  if sect.offsetWithinAddressSpace % page.size = 0 then splitAligned page sect
  else if sect.offsetWithinAddressSpace % page.size + sect.size ≤ page.size then [sect]
  else
    let run := page.size - sect.offsetWithinAddressSpace % page.size
    { sect with size := run } :: splitAligned page (sect.advance run)

def registerPiece (d : AddressSpaceDispatch) (piece : MemoryRegionSection) :
    Option AddressSpaceDispatch :=
  if WholePages page piece then registerMultipage page d piece else registerSubpage page d piece

/-- A part of a section answers as the section does. -/
structure PartOf (sect piece : MemoryRegionSection) : Prop where
  mr : piece.mr = sect.mr
  readonly : piece.readonly = sect.readonly
  nonvolatile : piece.nonvolatile = sect.nonvolatile
  lower : sect.offsetWithinAddressSpace ≤ piece.offsetWithinAddressSpace
  upper : piece.offsetWithinAddressSpace + piece.size ≤ sect.offsetWithinAddressSpace + sect.size
  offset : piece.offsetWithinRegion % 2 ^ 64 =
    (sect.offsetWithinRegion + (piece.offsetWithinAddressSpace - sect.offsetWithinAddressSpace)) %
    2 ^ 64

def EndsBefore (first second : MemoryRegionSection) : Prop :=
  first.offsetWithinAddressSpace + first.size ≤ second.offsetWithinAddressSpace

/-- A list of pieces tiles a section. -/
structure Splits (sect : MemoryRegionSection) (pieces : List MemoryRegionSection) : Prop where
  wellFormed : ∀ piece ∈ pieces, Piece page piece
  parts : ∀ piece ∈ pieces, PartOf sect piece
  ordered : pieces.Pairwise EndsBefore
  covering : ∀ addr, Covers sect addr → ∃ piece ∈ pieces, Covers piece addr

variable {page} {sect : MemoryRegionSection}

theorem PartOf.refl (sect) : PartOf sect sect :=
  ⟨rfl, rfl, rfl, le_rfl, le_rfl, by rw [Nat.sub_self, Nat.add_zero]⟩

theorem Splits.single (piece : Piece page sect) : Splits page sect [sect] where
  wellFormed := by simpa using piece
  parts := by simpa using PartOf.refl sect
  ordered := pairwise_singleton _ _
  covering := fun addr covers => ⟨sect, mem_singleton_self _, covers⟩

section

variable {run : Nat} (less : run < sect.size)
    (inside : sect.offsetWithinAddressSpace + sect.size ≤ 2 ^ 64)

include less inside

theorem MemoryRegionSection.advance_start :
    (sect.advance run).offsetWithinAddressSpace = sect.offsetWithinAddressSpace + run := by
  rw [advance]
  exact mod_eq_of_lt (by omega)

theorem PartOf.of_advance {piece} (part : PartOf (sect.advance run) piece) : PartOf sect piece := by
  have start := advance_start less inside
  obtain ⟨mr, readonly, nonvolatile, lower, upper, offset⟩ := part
  have size : (sect.advance run).size = sect.size - run := rfl
  have region : (sect.advance run).offsetWithinRegion = (sect.offsetWithinRegion + run) % 2 ^ 64 :=
    rfl
  rw [start] at lower upper offset
  rw [size] at upper
  refine ⟨mr, readonly, nonvolatile, by omega, by omega, ?_⟩
  rw [offset, region, mod_add_mod]
  congr 1
  omega

/-- One round of the loop cuts a piece off the front. -/
theorem Splits.cut {rest} (piece : Piece page { sect with size := run })
    (splits : Splits page (sect.advance run) rest) :
    Splits page sect ({ sect with size := run } :: rest) := by
  have start := advance_start less inside
  constructor
  · exact forall_mem_cons.mpr ⟨piece, splits.wellFormed⟩
  · refine forall_mem_cons.mpr ⟨⟨rfl, rfl, rfl, le_rfl, ?_, ?_⟩, fun other mem => ?_⟩
    · exact Nat.add_le_add_left (le_of_lt less) _
    · rw [Nat.sub_self, Nat.add_zero]
    · exact (splits.parts other mem).of_advance less inside
  · refine pairwise_cons.mpr ⟨fun other mem => ?_, splits.ordered⟩
    have := (splits.parts other mem).lower
    rw [start] at this
    exact this
  · -- An address lies in the front or in what is left.
    intro addr covers
    rcases lt_or_ge addr (sect.offsetWithinAddressSpace + run) with front | back
    · exact ⟨_, mem_cons_self, covers.1, front⟩
    have left : Covers (sect.advance run) addr := by
      have size : (sect.advance run).size = sect.size - run := rfl
      have := covers.2
      rw [Covers, start, size]
      omega
    obtain ⟨other, mem, here⟩ := splits.covering addr left
    exact ⟨other, mem_cons_of_mem _ mem, here⟩

end

/-- The pieces of a section that starts at a page tile it. -/
theorem splitAligned_splits (region : IsPiece sect) (nonempty : 0 < sect.size)
    (inside : sect.offsetWithinAddressSpace + sect.size ≤ 2 ^ 64)
    (aligned : sect.offsetWithinAddressSpace % page.size = 0) :
    Splits page sect (splitAligned page sect) := by
  have pos := page.size_pos
  have position := mod_lt sect.size pos
  unfold splitAligned
  split
  · exact .single ⟨region, nonempty, inside, .inr (by omega)⟩
  split
  · rename_i multiple
    exact .single ⟨region, nonempty, inside, .inl ⟨aligned, multiple⟩⟩
  -- Whole pages are cut off, and less than a page is left.
  have multiple : (sect.size - sect.size % page.size) % page.size = 0 :=
    sub_mod_eq_zero_of_mod_eq (mod_mod _ _).symm
  set run := sect.size - sect.size % page.size
  have less : run < sect.size := by omega
  have start := advance_start less inside
  refine .cut less inside ⟨region, ?_, ?_, .inl ⟨aligned, multiple⟩⟩
    (.single ⟨region, ?_, ?_, .inr ?_⟩)
  · change 0 < run
    omega
  · change sect.offsetWithinAddressSpace + run ≤ 2 ^ 64
    omega
  · change 0 < sect.size - run
    omega
  · rw [start]
    change _ + (sect.size - run) ≤ 2 ^ 64
    omega
  · rw [start, add_mod, aligned, multiple]
    change _ + (sect.size - run) ≤ page.size ∧ sect.size - run < page.size
    simp only [Nat.add_zero, zero_mod]
    omega

/-- The start of the next page, past the last page as well. -/
theorem TargetPage.align_next (page : TargetPage) {addr} (addr_lt : addr < 2 ^ 64)
    (unaligned : addr % page.size ≠ 0) :
    (page.align addr + 2 ^ 64 - addr) % 2 ^ 64 = page.size - addr % page.size := by
  have pos := page.size_pos
  have position := mod_lt addr pos
  have split := div_add_mod addr page.size
  have page_lt := page.page_lt addr_lt
  have limit := page.limit_mul_size
  have next : page.size * (addr / page.size + 1) = page.size * (addr / page.size) + page.size :=
    mul_succ _ _
  rw [TargetPage.align]
  rcases lt_or_ge (addr / page.size + 1) page.limit with inner | last
  · -- The next page starts inside the address space.
    have bound : page.size * (addr / page.size + 2) ≤ 2 ^ 64 := by
      rw [← limit, mul_comm page.limit]
      exact mul_le_mul_left _ inner
    rw [mul_add] at bound
    have rounded : (addr + page.size - 1) % 2 ^ 64 = (addr % page.size - 1) +
        page.size * (addr / page.size + 1) := by
      rw [mod_eq_of_lt (by omega)]
      omega
    have offset : (addr + page.size - 1) % 2 ^ 64 % page.size = addr % page.size - 1 := by
      rw [rounded, add_mul_mod_self_left, mod_eq_of_lt (by omega)]
    simp only [offset]
    rw [rounded]
    omega
  -- The next page would start at two to the 64, which wraps to zero.
  have whole : page.size * (addr / page.size + 1) = 2 ^ 64 := by
    have same : addr / page.size + 1 = page.limit := le_antisymm page_lt last
    rw [same, mul_comm, limit]
  have rounded : (addr + page.size - 1) % 2 ^ 64 = addr % page.size - 1 := by omega
  have offset : (addr % page.size - 1) % page.size = addr % page.size - 1 := mod_eq_of_lt (by omega)
  simp only [rounded, offset]
  omega

theorem advance_aligned {run} (run_eq : run = page.size - sect.offsetWithinAddressSpace % page.size)
    (less : run < sect.size) (inside : sect.offsetWithinAddressSpace + sect.size ≤ 2 ^ 64) :
    (sect.advance run).offsetWithinAddressSpace % page.size = 0 := by
  have pos := mod_lt sect.offsetWithinAddressSpace page.size_pos
  have split := div_add_mod sect.offsetWithinAddressSpace page.size
  have next : sect.offsetWithinAddressSpace + run =
      page.size * (sect.offsetWithinAddressSpace / page.size + 1) := by
    rw [mul_succ]
    omega
  rw [advance_start less inside, next, mul_mod_right]

/-- The pieces registered tile the section, each a page part or whole pages. -/
theorem splitSection_splits (region : IsPiece sect) (nonempty : 0 < sect.size)
    (inside : sect.offsetWithinAddressSpace + sect.size ≤ 2 ^ 64) :
    Splits page sect (splitSection page sect) := by
  have pos := mod_lt sect.offsetWithinAddressSpace page.size_pos
  unfold splitSection
  split
  · rename_i aligned
    exact splitAligned_splits region nonempty inside aligned
  split
  · exact .single ⟨region, nonempty, inside, .inr (by omega)⟩
  set run := page.size - sect.offsetWithinAddressSpace % page.size
  have less : run < sect.size := by omega
  have start := advance_start less inside
  refine .cut less inside ⟨region, ?_, ?_, .inr ?_⟩
    (splitAligned_splits region ?_ ?_ (advance_aligned rfl less inside))
  · change 0 < run
    omega
  · change sect.offsetWithinAddressSpace + run ≤ 2 ^ 64
    omega
  · change sect.offsetWithinAddressSpace % page.size + run ≤ page.size ∧ run < page.size
    omega
  · change 0 < sect.size - run
    omega
  · rw [start]
    change _ + (sect.size - run) ≤ 2 ^ 64
    omega

/-- Registration from a page on registers the pieces one by one. -/
theorem addAligned_eq (d) (inside : sect.offsetWithinAddressSpace + sect.size ≤ 2 ^ 64)
    (aligned : sect.offsetWithinAddressSpace % page.size = 0) :
    addAligned page d sect = (splitAligned page sect).foldlM (registerPiece page) d := by
  have pos := page.size_pos
  have position := mod_lt sect.size pos
  unfold addAligned splitAligned
  -- The loop and the split take the same three ways.
  by_cases short : sect.size < page.size
  · have part : ¬ WholePages page sect := fun whole => absurd whole.2 (Nat.not_le_of_lt short)
    rw [if_neg (Nat.not_le_of_lt short), if_pos short]
    simp [registerPiece, if_neg part]
  have long : page.size ≤ sect.size := Nat.le_of_not_lt short
  rw [if_pos long, if_neg short]
  by_cases multiple : sect.size % page.size = 0
  · have whole : WholePages page sect := ⟨aligned, long⟩
    have same : { sect with size := sect.size - sect.size % page.size } =
      sect := by rw [multiple, Nat.sub_zero]
    rw [if_pos multiple, same]
    simp [registerPiece, if_pos whole]
  rw [if_neg multiple]
  have at_least : page.size ≤ sect.size - sect.size % page.size :=
    le_of_dvd (by omega) (dvd_sub_mod _)
  set run := sect.size - sect.size % page.size
  have whole : WholePages page { sect with size := run } := ⟨aligned, at_least⟩
  have part : ¬ WholePages page (sect.advance run) := by
    intro also
    have : page.size ≤ sect.size - run := also.2
    omega
  have differ : ¬ sect.size = run := by omega
  simp only [foldlM_cons, foldlM_nil, bind_pure, registerPiece, if_pos whole, if_neg part,
    if_neg differ, int128Get64_of_lt (show run < 2 ^ 64 by omega)]
  rfl

/-- Registration of a section registers its pieces one by one. -/
theorem flatviewAddToDispatch_eq (d : AddressSpaceDispatch) (nonempty : 0 < sect.size)
    (inside : sect.offsetWithinAddressSpace + sect.size ≤ 2 ^ 64) :
    flatviewAddToDispatch page d sect = (splitSection page sect).foldlM (registerPiece page) d := by
  unfold flatviewAddToDispatch splitSection
  by_cases aligned : sect.offsetWithinAddressSpace % page.size = 0
  · rw [if_neg (not_not_intro aligned), if_pos aligned]
    exact addAligned_eq d inside aligned
  rw [if_pos aligned, if_neg aligned]
  -- An unaligned head is registered first, up to the next page.
  have next := page.align_next (by omega) aligned
  set run := page.size - sect.offsetWithinAddressSpace % page.size
  simp only [next]
  have part : ∀ size, ¬ WholePages page { sect with size := size } :=
    fun size whole => aligned whole.1
  by_cases within : sect.offsetWithinAddressSpace % page.size + sect.size ≤ page.size
  · have all : min run sect.size = sect.size := by omega
    rw [if_pos within, all]
    simp [registerPiece, if_neg (part sect.size)]
  have front : min run sect.size = run := by omega
  have differ : ¬ sect.size = run := by omega
  have less : run < sect.size := by omega
  have start := advance_start less inside
  have left : (sect.advance run).offsetWithinAddressSpace + (sect.advance run).size ≤ 2 ^ 64 := by
    rw [start]
    change _ + (sect.size - run) ≤ 2 ^ 64
    omega
  rw [if_neg within, front]
  simp only [foldlM_cons, registerPiece, if_neg (part _), if_neg differ,
    int128Get64_of_lt (show run < 2 ^ 64 by omega)]
  refine bind_congr fun d' => ?_
  exact addAligned_eq d' left (advance_aligned rfl less inside)

/-- The section of a range inside the address space. -/
def rangeSection (fr : FlatRange) : MemoryRegionSection :=
  { mr := .region fr.mr, offsetWithinRegion := fr.offsetInRegion, size := fr.addr.size.toNat,
    offsetWithinAddressSpace := fr.addr.start.toNat, readonly := fr.readonly,
    nonvolatile := fr.nonvolatile }

def viewPieces (page : TargetPage) (view : FlatView) : List MemoryRegionSection :=
  view.flatMap fun fr => splitSection page (rangeSection fr)

/-- A range is not empty and lies inside the address space. -/
def InAddressSpace (fr : FlatRange) : Prop :=
  0 ≤ fr.addr.start ∧ 0 < fr.addr.size ∧ addrrangeEnd fr.addr ≤ twoTo64

theorem registerPiece_spec {d done}
    (reflects : Reflects page d done (sharedPages page done))
    (wf : ∀ other ∈ done, Piece page other)
    (piece : Piece page sect) (after : ∀ other ∈ done, EndsBefore other sect)
    (room : sectionsNeeded page (done ++ [sect]) ≤ page.size) :
    ∃ d', registerPiece page d sect = some d' ∧
      Reflects page d' (done ++ [sect]) (sharedPages page (done ++ [sect])) := by
  by_cases whole : WholePages page sect
  · rw [registerPiece, if_pos whole]
    exact registerMultipage_spec reflects wf after piece whole room
  · rw [registerPiece, if_neg whole]
    exact registerSubpage_spec reflects wf after piece whole room

/-- Registration of pieces in order keeps the reflection. -/
theorem registerPieces_spec {d done} (pieces)
    (reflects : Reflects page d done (sharedPages page done))
    (wf : ∀ other ∈ done ++ pieces, Piece page other)
    (ordered : (done ++ pieces).Pairwise EndsBefore)
    (room : sectionsNeeded page (done ++ pieces) ≤ page.size) :
    ∃ d', pieces.foldlM (registerPiece page) d = some d' ∧
      Reflects page d' (done ++ pieces) (sharedPages page (done ++ pieces)) := by
  induction pieces generalizing d done with
  | nil =>
    rw [append_nil]
    exact ⟨d, rfl, reflects⟩
  | cons piece pieces ih =>
    have regroup : done ++ piece :: pieces = done ++ [piece] ++ pieces := by simp
    have mem : piece ∈ done ++ piece :: pieces := mem_append_right _ mem_cons_self
    obtain ⟨d', reg, reflects'⟩ := registerPiece_spec reflects
      (fun other old => wf other (mem_append_left _ old)) (wf piece mem)
      (fun other old => (pairwise_append.mp ordered).2.2 other old piece mem_cons_self)
      (le_trans (sectionsNeeded_append pieces) (regroup ▸ room))
    rw [regroup] at wf ordered room ⊢
    obtain ⟨d'', rest, final⟩ := ih reflects' wf ordered room
    exact ⟨d'', by rw [foldlM_cons, reg]; exact rest, final⟩

variable {fr : FlatRange}

section

variable (inside : InAddressSpace fr)

include inside

theorem sectionFromFlatRange_eq : sectionFromFlatRange fr = some (rangeSection fr) := by
  obtain ⟨start, size, stop⟩ := inside
  rw [addrrangeEnd] at stop
  have converted : int128Get64 fr.addr.start = some fr.addr.start.toNat := if_pos ⟨start, by omega⟩
  rw [sectionFromFlatRange, converted]
  rfl

theorem covers_rangeSection (addr) : Covers (rangeSection fr) addr ↔
    addrrangeContains fr.addr addr := by
  obtain ⟨start, size, _⟩ := inside
  rw [addrrangeContains_iff]
  simp only [Covers, rangeSection]
  omega

theorem rangeSection_inside : 0 < (rangeSection fr).size ∧
    (rangeSection fr).offsetWithinAddressSpace + (rangeSection fr).size ≤ 2 ^ 64 := by
  obtain ⟨start, size, stop⟩ := inside
  simp only [rangeSection, addrrangeEnd, twoTo64] at *
  omega

theorem range_splits : Splits page (rangeSection fr) (splitSection page (rangeSection fr)) := by
  obtain ⟨nonempty, inside⟩ := rangeSection_inside inside
  exact splitSection_splits rfl nonempty inside

end

/-- A view lists nonempty ranges in ascending order. -/
structure ViewInOrder (view : FlatView) : Prop where
  inside : ∀ fr ∈ view, InAddressSpace fr
  ordered : view.Pairwise fun left right => addrrangeEnd left.addr ≤ right.addr.start

variable {view : FlatView}

theorem ViewInOrder.mem_pieces (inOrder : ViewInOrder view) {piece}
    (mem : piece ∈ viewPieces page view) :
    ∃ fr ∈ view, Piece page piece ∧ PartOf (rangeSection fr) piece := by
  obtain ⟨fr, isRange, isPart⟩ := mem_flatMap.mp mem
  have splits := @range_splits page _ (inOrder.inside fr isRange)
  exact ⟨fr, isRange, splits.wellFormed piece isPart, splits.parts piece isPart⟩

theorem ViewInOrder.pieces_wellFormed (inOrder : ViewInOrder view) :
    ∀ piece ∈ viewPieces page view, Piece page piece := by
  intro piece mem
  obtain ⟨_, _, wf, _⟩ := inOrder.mem_pieces mem
  exact wf

/-- The pieces of a view come in address order. -/
theorem ViewInOrder.pieces_ordered (inOrder : ViewInOrder view) :
    (viewPieces page view).Pairwise EndsBefore := by
  refine pairwise_flatMap.mpr ⟨fun fr mem => (range_splits (inOrder.inside fr mem)).ordered, ?_⟩
  -- Pieces of different ranges are apart because the ranges are.
  refine List.Pairwise.imp_of_mem (fun {left right} leftMem rightMem before => ?_) inOrder.ordered
  intro first isFirst second isSecond
  have leftInside := inOrder.inside left leftMem
  have rightInside := inOrder.inside right rightMem
  have upper := ((range_splits leftInside).parts first isFirst).upper
  have lower := ((range_splits rightInside).parts second isSecond).lower
  obtain ⟨_, _, _⟩ := leftInside
  simp only [EndsBefore, rangeSection, addrrangeEnd] at *
  omega

/-- Registering a view is registering its pieces one by one. -/
theorem register_view (view) (inside : ∀ fr ∈ view, InAddressSpace fr) (d) :
    view.foldlM (fun d fr => do
      let sect ← sectionFromFlatRange fr
      flatviewAddToDispatch page d sect) d =
          (viewPieces page view).foldlM (registerPiece page) d := by
  induction view generalizing d with
  | nil => rfl
  | cons fr view ih =>
    obtain ⟨nonempty, fits⟩ := rangeSection_inside (inside fr mem_cons_self)
    rw [foldlM_cons, viewPieces, flatMap_cons, foldlM_append,
      sectionFromFlatRange_eq (inside fr mem_cons_self)]
    simp only [Option.bind_eq_bind, Option.bind_some]
    rw [flatviewAddToDispatch_eq d nonempty fits]
    exact Option.bind_congr fun d' _ =>
      ih (fun other mem => inside other (mem_cons_of_mem _ mem)) d'

/-- The empty dispatch structure reflects no piece. -/
theorem addressSpaceDispatchNew_spec (allocHint) :
    ∃ d, addressSpaceDispatchNew page allocHint = some d ∧
        Reflects page d [] (sharedPages page []) := by
  refine ⟨⟨.empty 1, ⟨0, 0, allocHint⟩, [unassignedSection], []⟩, ?_, ?_⟩
  · simp only [addressSpaceDispatchNew, physSectionAdd, length_nil, page.size_pos, if_true]
    rfl
  obtain ⟨level, level_eq⟩ : ∃ level, page.levels = level + 1 :=
    ⟨page.levels - 1, by have := page.levels_pos; omega⟩
  -- The only section is the unassigned one, so that nothing else is claimed.
  have only : ∀ (n : Nat) (sect : MemoryRegionSection), [unassignedSection][n]? = some sect →
      n = physSectionUnassigned ∧ sect = unassignedSection := by
    intro n sect found
    have within := (List.getElem?_eq_some_iff.mp found).1
    rw [length_singleton, lt_one_iff] at within
    subst within
    exact ⟨rfl, (Option.some.inj found).symm⟩
  constructor
  · rw [level_eq]
    rfl
  · rfl
  · rfl
  · rfl
  · exact zero_le _
  · intro p _
    left
    rw [level_eq]
    rfl
  · intro p mem
    exact absurd mem (Finset.notMem_empty p)
  · intro n sect addr found isPiece _
    rw [(only n sect found).2] at isPiece
    contradiction
  · intro n sect num found isShared
    rw [(only n sect found).2] at isShared
    contradiction
  · intro n sect found _
    exact (only n sect found).1

theorem buildDispatch_spec (inOrder : ViewInOrder view)
    (few : sectionsNeeded page (viewPieces page view) ≤ page.size) (allocHint) :
    ∃ d, buildDispatch page allocHint view = some d ∧
      Reflects page d (viewPieces page view) (sharedPages page (viewPieces page view)) := by
  obtain ⟨empty, created, reflects⟩ := @addressSpaceDispatchNew_spec page allocHint
  obtain ⟨d, built, final⟩ := registerPieces_spec (viewPieces page view) reflects
    inOrder.pieces_wellFormed inOrder.pieces_ordered few
  refine ⟨d, ?_, final⟩
  rw [buildDispatch, created]
  exact (register_view view inOrder.inside empty).trans built

end Qemu.Exec
